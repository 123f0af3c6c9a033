import MemoryEncryption.Library.CyclicOrder
import MemoryEncryption.Library.Tiling
import MemoryEncryption.User.Malloc

/-!
# Blocks of the user heap

The free blocks of `umalloc.c`, with `base` among them, are linked in ascending order;
together with the blocks in use they tile the memory that `sbrk` has given. `free` puts a
block in where the order wants it and joins it to its neighbours, `malloc` takes a block
or the end of one, and both find their place before they have been around once. All of
this rests on `base` staying in the list: a region of memory that ends where `base` begins
would be joined to it.
-/

namespace MemoryEncryption

open Function Outcome

variable {n b a nunits prevp : Nat}

namespace Heap

variable {h : Heap} {free live : Set Nat} {p bp : Nat}

/-- The memory obtained from `sbrk`. -/
def space (h : Heap) : Set Nat := { x | ∃ r ∈ h.obtained, r.1 ≤ x ∧ x < r.1 + r.2 }

/-- The blocks, without `base`. -/
def blocks (h : Heap) (free live : Set Nat) : Set Nat := (free \ {h.base}) ∪ live

/-- Where the memory is. -/
structure Placed (h : Heap) : Prop where
  /-- `base` has an address. -/
  base : 0 < h.base ∧ h.base < 2 ^ 32
  /-- Memory has addresses, and so has its end. -/
  bounded : ∀ x ∈ h.space, 0 < x ∧ x + 1 < 2 ^ 32
  /-- No memory is in `base`, or ends where `base` begins. -/
  away : ∀ x ∈ h.space, x + 1 < h.base ∨ h.base + headerSize ≤ x

/-- The free blocks, with `base` among them, and the blocks in use tile the memory. -/
structure Arranged (h : Heap) (free live : Set Nat) : Prop extends Placed h where
  listed : h.base ∈ free
  empty : h.size h.base = 0
  separate : ∀ b ∈ live, b ∉ free
  tiles : Tiles (h.blocks free live) (fun b => headerSize * h.size b) h.space
  aligned : ∀ b ∈ h.blocks free live, headerSize ∣ b

/-- The free blocks are linked in order, and no two of them touch. -/
structure Laid (h : Heap) (free live : Set Nat) : Prop extends Arranged h free live where
  roving : h.freep ∈ free
  follows : Follows free h.ptr
  merged : ∀ b ∈ free, b ≠ h.base → ∀ c ∈ free, b + headerSize * h.size b ≠ c

/-- A block has been linked to the free block after it, or joined to it, and is not linked from the
free block before it yet. -/
structure Pending (h : Heap) (free live : Set Nat) (p bp : Nat) : Prop
    extends Arranged h free live where
  before : p ∈ free
  entering : bp ∈ free
  distinct : p ≠ bp
  proper : bp ≠ h.base
  /-- With the link that is missing, each free block is linked to the next one. -/
  follows : Follows free (Function.update h.ptr p bp)
  merged : ∀ b ∈ free, b ≠ h.base → ∀ c ∈ free, b + headerSize * h.size b = c → b = p ∧ c = bp

theorem mem_blocks_free (member : p ∈ free) (other : p ≠ h.base) : p ∈ h.blocks free live :=
  .inl ⟨member, other⟩

theorem mem_blocks_live (member : p ∈ live) : p ∈ h.blocks free live := .inr member

theorem blocks_insert (member : bp ∈ live) (proper : bp ≠ h.base) :
    h.blocks (insert bp free) (live \ {bp}) = h.blocks free live := by
  ext x
  simp only [blocks, Set.mem_union, Set.mem_sdiff, Set.mem_insert_iff, Set.mem_singleton_iff]
  by_cases same : x = bp
  · simp [same, proper, member]
  · simp [same]

theorem blocks_remove (absent : p ∉ live) :
    h.blocks (free \ {p}) live = h.blocks free live \ {p} := by
  ext x
  simp only [blocks, Set.mem_union, Set.mem_sdiff, Set.mem_singleton_iff]
  by_cases same : x = p
  · simp [same, absent]
  · simp [same]

theorem blocks_use (p : Nat) : h.blocks free (insert p live) = insert p (h.blocks free live) := by
  rw [blocks, blocks, Set.union_insert]

theorem Placed.end_lt (placed : h.Placed) {blocks : Set Nat}
    (tiles : Tiles blocks (fun b => headerSize * h.size b) h.space) (member : p ∈ blocks) :
    0 < p ∧ p + headerSize * h.size p < 2 ^ 32 := by
  have positive := tiles.positive p member
  have first := placed.bounded p (tiles.mem_space member (le_refl p) (by omega))
  have last := placed.bounded (p + headerSize * h.size p - 1)
    (tiles.mem_space member (by omega) (by omega))
  omega

theorem headerAt_eq (bound : p + headerSize * n < 2 ^ 32) :
    headerAt p n = p + headerSize * n := Nat.mod_eq_of_lt bound

theorem Laid.node_lt (laid : h.Laid free live) (member : p ∈ free) : 0 < p ∧ p < 2 ^ 32 := by
  by_cases same : p = h.base
  · rw [same]
    exact laid.base
  · have bound := laid.end_lt laid.tiles (mem_blocks_free member same)
    omega

theorem Laid.next_ne (laid : h.Laid free live) (member : p ∈ free) (other : h.ptr p ≠ h.base) :
    h.ptr p ≠ p := by
  intro same
  have out := (laid.follows p member).2 h.base laid.listed
  rw [same] at out other
  unfold Inside at out
  omega

/-! ## Free -/

/-- The loop of `free` finds the free block after which the block belongs. -/
theorem Laid.freeLoop_eq (laid : h.Laid free live) (absent : bp ∉ free) (rounds : Nat)
    (member : p ∈ free) (enough : Follows.distance (2 ^ 32) bp p < rounds) :
    ∃ q ∈ free, h.freeLoop bp rounds p = .ok q ∧ Inside q bp (h.ptr q) := by
  induction rounds generalizing p with
  | zero => omega
  | succ rounds ih =>
    rw [freeLoop]
    split
    case isTrue between => exact ⟨p, member, rfl, .inl between⟩
    case isFalse notBetween =>
      split
      case isTrue wraps => exact ⟨p, member, rfl, .inr wraps⟩
      case isFalse notWraps =>
        have nextMember := (laid.follows p member).1
        have outside : ¬ Inside p bp (h.ptr p) := by
          rintro (between | wraps)
          · exact notBetween between
          · exact notWraps wraps
        have short : h.ptr p ≠ bp := by
          rintro rfl
          exact absent nextMember
        have closer := Follows.distance_lt (laid.node_lt member).2 (laid.node_lt nextMember).2
          outside short
        exact ih nextMember (by omega)

theorem Arranged.node_outside (arranged : h.Arranged free live) (member : b ∈ h.blocks free live)
    (node : n ∈ free) (after : b < n) : b + headerSize * h.size b ≤ n := by
  by_cases same : n = h.base
  · by_contra inside
    have away := arranged.away n (arranged.tiles.mem_space member (by omega) (by omega))
    unfold headerSize at *
    omega
  · exact arranged.tiles.apart b member n (mem_blocks_free node same) after

theorem Arranged.end_ne_base (arranged : h.Arranged free live) (member : p ∈ h.blocks free live) :
    p + headerSize * h.size p ≠ h.base := by
  intro touch
  have positive := arranged.tiles.positive p member
  have away := arranged.away (p + headerSize * h.size p - 1)
    (arranged.tiles.mem_space member (by omega) (by omega))
  omega

theorem Laid.touch_upper {c : Nat} (laid : h.Laid free live) (member : bp ∈ live) (before : p ∈ free)
    (between : Inside p bp (h.ptr p)) (there : c ∈ free)
    (touch : bp + headerSize * h.size bp = c) : c = h.ptr p := by
  obtain ⟨nextMember, nearest⟩ := laid.follows p before
  have outside := nearest c there
  have positive := laid.tiles.positive bp (mem_blocks_live member)
  have past := laid.node_outside (mem_blocks_live member) nextMember
  unfold Inside at *
  omega

theorem Laid.touch_lower (laid : h.Laid free live) (before : p ∈ free)
    (between : Inside p bp (h.ptr p)) (there : b ∈ free) (other : b ≠ h.base)
    (touch : b + headerSize * h.size b = bp) : b = p := by
  have outside := (laid.follows p before).2 b there
  have positive := laid.tiles.positive b (mem_blocks_free there other)
  have past := laid.node_outside (mem_blocks_free there other) before
  unfold Inside at *
  omega

theorem Arranged.give (arranged : h.Arranged free live) (member : bp ∈ live) (proper : bp ≠ h.base) :
    h.Arranged (insert bp free) (live \ {bp}) where
  toPlaced := arranged.toPlaced
  listed := Set.mem_insert_of_mem _ arranged.listed
  empty := arranged.empty
  separate := by
    rintro b ⟨isLive, other⟩ (rfl | isFree)
    · exact other rfl
    · exact arranged.separate b isLive isFree
  tiles := by
    rw [blocks_insert member proper]
    exact arranged.tiles
  aligned := by
    rw [blocks_insert member proper]
    exact arranged.aligned

/-- A free block is joined to the block that ends where it begins. -/
theorem Arranged.join {c : Nat} (next : Nat) (arranged : h.Arranged free live)
    (first : b ∈ h.blocks free live) (proper : b ≠ h.base) (member : c ∈ free) (other : c ≠ h.base)
    (touch : b + headerSize * h.size b = c) :
    ((h.setSize b (h.size b + h.size c)).setPtr b next).Arranged (free \ {c}) live := by
  have notLive : c ∉ live := fun isLive => arranged.separate c isLive member
  have same : h.blocks (free \ {c}) live = h.blocks free live \ {c} := blocks_remove notLive
  have joined := arranged.tiles.join first (mem_blocks_free member other) touch
  refine ⟨⟨arranged.base, arranged.bounded, arranged.away⟩, ⟨arranged.listed, Ne.symm other⟩, ?_,
    fun b isLive isFree => arranged.separate b isLive isFree.1, ?_, ?_⟩
  · show update h.size b _ h.base = 0
    rw [update_of_ne proper.symm]
    exact arranged.empty
  · show Tiles (h.blocks _ _) _ h.space
    rw [same]
    apply joined.congr
    intro a _
    by_cases here : a = b
    · subst here
      simp only [setSize, setPtr, update_self, Nat.mul_add]
    · simp only [setSize, setPtr, update_of_ne here]
  · show ∀ b ∈ h.blocks _ _, _
    rw [same]
    exact fun b there => arranged.aligned b there.1

/-- `free` joins the block to the free block after it. -/
theorem Laid.joinUpper_touch (laid : h.Laid free live) (member : bp ∈ live) (before : p ∈ free)
    (between : Inside p bp (h.ptr p)) (touch : bp + headerSize * h.size bp = h.ptr p) :
    ((h.setSize bp (h.size bp + h.size (h.ptr p))).setPtr bp (h.ptr (h.ptr p))).Pending
      (insert bp free \ {h.ptr p}) (live \ {bp}) p bp := by
  have absent : bp ∉ free := laid.separate bp member
  have nextMember := (laid.follows p before).1
  have positive := laid.tiles.positive bp (mem_blocks_live member)
  have notBase : h.ptr p ≠ h.base := touch ▸ laid.end_ne_base (mem_blocks_live member)
  have nextNe : h.ptr p ≠ p := laid.next_ne before notBase
  have proper : bp ≠ h.base := fun same => absent (same ▸ laid.listed)
  have distinct : p ≠ bp := fun same => absent (same ▸ before)
  have nextBp : h.ptr p ≠ bp := fun same => absent (same ▸ nextMember)
  have inserted := laid.follows.insert before absent between
  have atBp : update (update h.ptr bp (h.ptr p)) p bp bp = h.ptr p := by
    rw [update_of_ne distinct.symm, update_self]
  have removed := inserted.remove (Set.mem_insert bp free) (by rw [atBp]; exact nextBp)
  rw [atBp] at removed
  have joined := (laid.toArranged.give member proper).join (h.ptr (h.ptr p))
    (mem_blocks_free (Set.mem_insert _ _) proper) proper (Set.mem_insert_of_mem _ nextMember) notBase
    touch
  refine ⟨joined, ⟨Set.mem_insert_of_mem _ before, Ne.symm nextNe⟩,
    ⟨Set.mem_insert _ _, Ne.symm nextBp⟩, distinct, proper, ?_, ?_⟩
  · apply removed.congr
    intro a _
    by_cases atP : a = p
    · subst atP
      rw [update_self, update_of_ne distinct, update_self]
    · by_cases atNew : a = bp
      · subst atNew
        simp only [setSize, setPtr, update_self, update_of_ne atP,
          update_of_ne nextNe, update_of_ne nextBp]
      · simp only [setSize, setPtr, update_of_ne atP, update_of_ne atNew]
  · rintro b ⟨rfl | bMember, bNext⟩ notB c ⟨cMember, cNext⟩ touches
    · -- The joined block ends where the free block ended.
      have far : h.ptr p + headerSize * h.size (h.ptr p) = c := by
        simp only [setSize, setPtr, update_self, Nat.mul_add] at touches
        omega
      rcases cMember with rfl | cMember
      · omega
      · exact absurd far (laid.merged _ nextMember notBase c cMember)
    · have other : b ≠ bp := by
        rintro rfl
        exact absent bMember
      simp only [setSize, setPtr, update_of_ne other] at touches
      rcases cMember with rfl | cMember
      · exact ⟨laid.touch_lower before between bMember notB touches, rfl⟩
      · exact absurd touches (laid.merged b bMember notB c cMember)

/-- `free` links the block to the free block after it. -/
theorem Laid.joinUpper_apart (laid : h.Laid free live) (member : bp ∈ live) (before : p ∈ free)
    (between : Inside p bp (h.ptr p)) (apart : bp + headerSize * h.size bp ≠ h.ptr p) :
    (h.setPtr bp (h.ptr p)).Pending (insert bp free) (live \ {bp}) p bp := by
  have absent : bp ∉ free := laid.separate bp member
  have proper : bp ≠ h.base := fun same => absent (same ▸ laid.listed)
  have distinct : p ≠ bp := fun same => absent (same ▸ before)
  refine ⟨{ laid.toArranged.give member proper with }, Set.mem_insert_of_mem _ before,
    Set.mem_insert _ _, distinct, proper, laid.follows.insert before absent between, ?_⟩
  · rintro b (rfl | bMember) notB c (rfl | cMember) touches
    · have positive := laid.tiles.positive c (mem_blocks_live member)
      have ends : c + headerSize * h.size c = c := touches
      omega
    · exact absurd ((laid.touch_upper member before between cMember touches) ▸ touches) apart
    · exact ⟨laid.touch_lower before between bMember notB touches, rfl⟩
    · exact absurd touches (laid.merged b bMember notB c cMember)

/-- `free` links the block to the free block after it, or joins it to that. -/
theorem Laid.joinUpper (laid : h.Laid free live) (member : bp ∈ live) (before : p ∈ free)
    (between : Inside p bp (h.ptr p)) :
    ∃ free', (h.joinUpper p bp).Pending free' (live \ {bp}) p bp ∧
      h.size bp ≤ (h.joinUpper p bp).size bp ∧
      ∀ b, b ≠ bp → (h.joinUpper p bp).size b = h.size b := by
  have nextMember := (laid.follows p before).1
  have bound := laid.end_lt laid.tiles (mem_blocks_live member)
  unfold Heap.joinUpper
  rw [headerAt_eq bound.2]
  split
  case isTrue touch =>
    have notBase : h.ptr p ≠ h.base := touch ▸ laid.end_ne_base (mem_blocks_live member)
    have nextBound := laid.end_lt laid.tiles (mem_blocks_free nextMember notBase)
    have whole : (h.size bp + h.size (h.ptr p)) % 2 ^ 32 = h.size bp + h.size (h.ptr p) := by
      apply Nat.mod_eq_of_lt
      unfold headerSize at *
      omega
    rw [whole]
    refine ⟨_, laid.joinUpper_touch member before between touch, ?_, ?_⟩
    · simp [setSize, setPtr]
    · intro b other
      simp [setSize, setPtr, other]
  case isFalse apart =>
    exact ⟨_, laid.joinUpper_apart member before between apart, le_refl _, fun _ _ => rfl⟩

/-- `free` joins the block to the free block before it. -/
theorem Pending.joinLower_touch (pending : h.Pending free live p bp)
    (touch : p + headerSize * h.size p = bp) :
    Laid { (h.setSize p (h.size p + h.size bp)).setPtr p (h.ptr bp) with freep := p }
      (free \ {bp}) live := by
  have distinct := pending.distinct
  have notBase : p ≠ h.base := by
    rintro rfl
    rw [pending.empty] at touch
    exact distinct touch
  have joined := pending.toArranged.join (h.ptr bp) (mem_blocks_free pending.before notBase)
    notBase pending.entering pending.proper touch
  have removed := pending.follows.remove pending.before
    (by rw [update_self]; exact Ne.symm distinct)
  rw [update_self, update_of_ne distinct.symm, update_idem] at removed
  refine ⟨{ joined with }, ⟨pending.before, distinct⟩, removed, ?_⟩
  · rintro b ⟨bMember, _⟩ notB c ⟨cMember, cNe⟩ touches
    by_cases atP : b = p
    · -- The joined block ends where the block ended.
      have far : bp + headerSize * h.size bp = c := by
        simp only [setSize, setPtr, atP, update_self, Nat.mul_add] at touches
        omega
      exact distinct (pending.merged bp pending.entering pending.proper c cMember far).1.symm
    · simp only [setSize, setPtr, update_of_ne atP] at touches
      exact atP (pending.merged b bMember notB c cMember touches).1

theorem Pending.joinLower_apart (pending : h.Pending free live p bp)
    (apart : p + headerSize * h.size p ≠ bp) :
    Laid { h.setPtr p bp with freep := p } free live where
  toArranged := { pending.toArranged with }
  roving := pending.before
  follows := pending.follows
  merged := by
    intro b bMember notB c cMember touches
    obtain ⟨rfl, rfl⟩ := pending.merged b bMember notB c cMember touches
    exact apart touches

/-- `free` links the free block before the block to it, or joins it to that. -/
theorem Pending.joinLower (pending : h.Pending free live p bp) :
    ∃ free', Laid { h.joinLower p bp with freep := p } free' live ∧
      (∃ b ∈ free', h.size bp ≤ (h.joinLower p bp).size b) ∧
      ∀ b ∈ live, (h.joinLower p bp).size b = h.size b := by
  have bound : p + headerSize * h.size p < 2 ^ 32 := by
    by_cases same : p = h.base
    · rw [same, pending.empty]
      exact pending.base.2
    · exact (pending.end_lt pending.tiles (mem_blocks_free pending.before same)).2
  unfold Heap.joinLower
  rw [headerAt_eq bound]
  split
  case isTrue touch =>
    have upper := pending.end_lt pending.tiles (mem_blocks_free pending.entering pending.proper)
    have whole : (h.size p + h.size bp) % 2 ^ 32 = h.size p + h.size bp := by
      apply Nat.mod_eq_of_lt
      unfold headerSize at *
      omega
    rw [whole]
    refine ⟨_, pending.joinLower_touch touch, ⟨p, ⟨pending.before, pending.distinct⟩, ?_⟩, ?_⟩
    · simp [setSize, setPtr]
    · intro b isLive
      have other : b ≠ p := fun same => pending.separate b isLive (same ▸ pending.before)
      simp [setSize, setPtr, other]
  case isFalse apart =>
    exact ⟨_, pending.joinLower_apart apart, ⟨bp, pending.entering, le_refl _⟩, fun _ _ => rfl⟩

/-- `free` of a block in use returns, and leaves the other blocks in use as they are. -/
theorem Laid.free_ok (laid : h.Laid free live) (member : bp ∈ live) :
    ∃ h' free', h.free (bp + headerSize) = .ok h' ∧ h'.Laid free' (live \ {bp}) ∧
      (∃ b ∈ free', h.size bp ≤ h'.size b) ∧ (∀ b ∈ live, b ≠ bp → h'.size b = h.size b) := by
  have absent : bp ∉ free := laid.separate bp member
  have bound := laid.end_lt laid.tiles (mem_blocks_live member)
  have address : (bp + headerSize + 2 ^ 32 - headerSize) % 2 ^ 32 = bp := by
    unfold headerSize at *
    omega
  have enough : Follows.distance (2 ^ 32) bp h.freep < heapRounds := by
    have round : Follows.distance (2 ^ 32) bp h.freep < 2 ^ 32 :=
      Follows.distance_lt_bound (by omega)
    unfold heapRounds
    omega
  obtain ⟨p, before, found, between⟩ := laid.freeLoop_eq absent heapRounds laid.roving enough
  obtain ⟨middle, pending, grown, kept⟩ := laid.joinUpper member before between
  obtain ⟨free', after, ⟨b, bMember, holds⟩, same⟩ := pending.joinLower
  refine ⟨_, free', ?_, after, ⟨b, bMember, le_trans grown holds⟩, ?_⟩
  · have notNull := laid.node_lt laid.roving
    rw [Heap.free, if_neg (by omega)]
    simp only [address, found, ok_bind]
    rfl
  · intro b isLive other
    exact (same b ⟨isLive, other⟩).trans (kept b other)

/-! ## More memory -/

/-- The memory is aligned, and disjoint from what has been obtained before and from `base`. -/
def Fresh (h : Heap) (a bytes : Nat) : Prop :=
  headerSize ∣ a ∧ 0 < a ∧ a + bytes < 2 ^ 32 ∧
    (∀ r ∈ h.obtained, a + bytes ≤ r.1 ∨ r.1 + r.2 ≤ a) ∧
    (a + bytes ≤ h.base ∨ h.base + headerSize ≤ a)

theorem Fresh.unused {bytes x : Nat} (fresh : h.Fresh a bytes) (lower : a ≤ x)
    (upper : x < a + bytes) : x ∉ h.space := by
  rintro ⟨r, member, inside⟩
  have apart := fresh.2.2.2.1 r member
  omega

theorem Arranged.fresh_ne {bytes : Nat} (arranged : h.Arranged free live) (some : 0 < bytes)
    (fresh : h.Fresh a bytes) (member : b ∈ h.blocks free live) : b ≠ a := by
  rintro rfl
  have length := arranged.tiles.positive b member
  exact fresh.unused (le_refl b) (by omega)
    (arranged.tiles.mem_space member (le_refl b) (by omega))

theorem Laid.obtain (laid : h.Laid free live) (some : 0 < n) (fresh : h.Fresh a (n * headerSize))
    (clear : a + n * headerSize ≠ h.base) :
    Laid ({ h with obtained := (a, n * headerSize) :: h.obtained }.setSize a n) free
      (insert a live) := by
  have long : 0 < n * headerSize := Nat.mul_pos some (by decide)
  have absent : ∀ b ∈ h.blocks free live, b ≠ a := fun b => laid.fresh_ne long fresh
  have unused := fun x => fresh.unused (x := x)
  obtain ⟨aligned, positive, bound, beside, offBase⟩ := fresh
  have notBase : h.base ≠ a := by
    unfold headerSize at *
    omega
  have notFree : a ∉ free := by
    intro isFree
    exact absent a (mem_blocks_free isFree notBase.symm) rfl
  have kept : ∀ b, b ≠ a → update h.size a n b = h.size b :=
    fun b other => update_of_ne other _ _
  have grown : ∀ x, x ∈ space { h with obtained := (a, n * headerSize) :: h.obtained } ↔
      x ∈ h.space ∪ Set.Ico a (a + n * headerSize) := by
    intro x
    rw [Set.mem_union, Set.mem_Ico]
    constructor
    · rintro ⟨r, member, inside⟩
      rcases List.mem_cons.mp member with rfl | old
      · exact .inr inside
      · exact .inl ⟨r, old, inside⟩
    · rintro (⟨r, member, inside⟩ | inside)
      · exact ⟨r, List.mem_cons_of_mem _ member, inside⟩
      · exact ⟨_, List.mem_cons_self, inside⟩
  refine ⟨⟨⟨laid.base, ?_, ?_⟩, laid.listed, ?_, ?_, ?_, ?_⟩, laid.roving, laid.follows, ?_⟩
  · intro x there
    rcases (grown x).mp there with old | ⟨lower, upper⟩
    · exact laid.bounded x old
    · omega
  · intro x there
    show x + 1 < h.base ∨ h.base + headerSize ≤ x
    rcases (grown x).mp there with old | ⟨lower, upper⟩
    · exact laid.away x old
    · omega
  · exact (kept h.base notBase).trans laid.empty
  · rintro b (rfl | isLive)
    · exact notFree
    · exact laid.separate b isLive
  · have tiles := laid.tiles.insert long unused
    have sets : space { h with obtained := (a, n * headerSize) :: h.obtained } =
        h.space ∪ Set.Ico a (a + n * headerSize) := Set.ext grown
    show Tiles (h.blocks _ _) _ (space { h with obtained := (a, n * headerSize) :: h.obtained })
    rw [blocks_use, sets]
    apply tiles.congr
    rintro b (rfl | member)
    · simp only [setSize, update_self, Nat.mul_comm]
    · simp only [setSize, update_of_ne (absent b member)]
  · show ∀ b ∈ h.blocks _ _, _
    rw [blocks_use]
    rintro b (rfl | member)
    · exact aligned
    · exact laid.aligned b member
  · intro b isFree notB c there touches
    have other : b ≠ a := by
      rintro rfl
      exact notFree isFree
    simp only [setSize, update_of_ne other] at touches
    exact laid.merged b isFree notB c there touches

/-- The bytes that `morecore` asks for. -/
def moreBytes (nu : Nat) : Nat := (if nu < 4096 then 4096 else nu) * headerSize

/-- `morecore` with memory from `sbrk` leaves a free block that is large enough. -/
theorem Laid.morecore_ok {nu : Nat} (laid : h.Laid free live) (few : nu ≤ 2 ^ 28)
    (fresh : h.Fresh a (moreBytes nu)) (clear : a + moreBytes nu ≠ h.base) :
    ∃ h' free', h.morecore (some a) nu = .ok (h'.freep, h') ∧ h'.Laid free' live ∧
      (∃ b ∈ free', nu ≤ h'.size b) ∧ ∀ b ∈ live, h'.size b = h.size b := by
  obtain ⟨n, asked⟩ : ∃ n, n = if nu < 4096 then 4096 else nu := ⟨_, rfl⟩
  have enough : nu ≤ n ∧ 0 < n ∧ n ≤ 2 ^ 28 := by
    split at asked <;> omega
  have bytes : moreBytes nu = n * headerSize := by rw [moreBytes, ← asked]
  have whole : n * headerSize % 2 ^ 32 = n * headerSize := by
    apply Nat.mod_eq_of_lt
    unfold headerSize
    omega
  rw [bytes] at fresh clear
  have obtained := laid.obtain enough.2.1 fresh clear
  have member : a ∈ insert a live := Set.mem_insert _ _
  have notLive : a ∉ live := by
    intro isLive
    exact laid.fresh_ne (Nat.mul_pos enough.2.1 (by decide)) fresh (mem_blocks_live isLive) rfl
  obtain ⟨h', free', freed, after, ⟨b, bMember, large⟩, kept⟩ := obtained.free_ok member
  have next : headerAt a 1 = a + headerSize := by
    rw [headerAt_eq, Nat.mul_one]
    have bound := fresh.2.2.1
    unfold headerSize at *
    omega
  refine ⟨h', free', ?_, ?_, ⟨b, bMember, ?_⟩, ?_⟩
  · simp only [morecore, ← asked, whole, next, freed, ok_bind]
    rfl
  · rwa [Set.insert_sdiff_self_of_notMem notLive] at after
  · refine le_trans ?_ large
    simp only [setSize, update_self]
    exact enough.1
  · intro b isLive
    have other : b ≠ a := fun same => notLive (same ▸ isLive)
    rw [kept b (Set.mem_insert_of_mem _ isLive) other]
    simp only [setSize, update_of_ne other]

/-! ## Malloc -/

/-- What a call of `malloc` that takes a block leaves. -/
structure Took (h : Heap) (live : Set Nat) (nunits : Nat) (r : Nat × Heap) (bp : Nat) : Prop where
  pointer : r.1 = bp + headerSize
  fresh : bp ∉ live
  size : r.2.size bp = nunits
  laid : ∃ free', r.2.Laid free' (insert bp live)
  kept : ∀ b ∈ live, r.2.size b = h.size b

theorem Laid.take_whole (laid : h.Laid free live) (some : 0 < nunits) (before : prevp ∈ free)
    (fits : h.size (h.ptr prevp) = nunits) :
    Took h live nunits (h.take prevp nunits) (h.ptr prevp) := by
  have member := (laid.follows prevp before).1
  have notBase : h.ptr prevp ≠ h.base := by
    intro same
    rw [same, laid.empty] at fits
    omega
  have inBlocks : h.ptr prevp ∈ h.blocks free live := mem_blocks_free member notBase
  have notLive : h.ptr prevp ∉ live := fun isLive => laid.separate _ isLive member
  have other := laid.next_ne before notBase
  have bound := laid.end_lt laid.tiles inBlocks
  have same : h.blocks (free \ {h.ptr prevp}) (insert (h.ptr prevp) live) = h.blocks free live := by
    rw [blocks_use, blocks_remove notLive, Set.insert_sdiff_singleton,
      Set.insert_eq_of_mem inBlocks]
  have taken : h.take prevp nunits = (h.ptr prevp + headerSize,
      { h.setPtr prevp (h.ptr (h.ptr prevp)) with freep := prevp }) := by
    simp only [take]
    rw [if_pos fits, headerAt_eq, Nat.mul_one]
    unfold headerSize at *
    omega
  rw [taken]
  refine ⟨rfl, notLive, fits, ⟨free \ {h.ptr prevp}, ?_⟩, fun _ _ => rfl⟩
  refine ⟨⟨⟨laid.base, laid.bounded, laid.away⟩, ⟨laid.listed, Ne.symm notBase⟩, laid.empty, ?_, ?_,
    ?_⟩, ⟨before, Ne.symm other⟩, laid.follows.remove before other, ?_⟩
  · rintro b (rfl | isLive) ⟨isFree, apart⟩
    · exact apart rfl
    · exact laid.separate b isLive isFree
  · show Tiles (h.blocks _ _) _ h.space
    rw [same]
    exact laid.tiles
  · show ∀ b ∈ h.blocks _ _, _
    rw [same]
    exact laid.aligned
  · exact fun b isFree notB c there => laid.merged b isFree.1 notB c there.1

theorem Laid.take_end (laid : h.Laid free live) (some : 0 < nunits) (before : prevp ∈ free)
    (fits : nunits < h.size (h.ptr prevp)) :
    Took h live nunits (h.take prevp nunits)
      (h.ptr prevp + headerSize * (h.size (h.ptr prevp) - nunits)) := by
  obtain ⟨p, isP⟩ : ∃ p, p = h.ptr prevp := ⟨_, rfl⟩
  obtain ⟨left, isLeft⟩ : ∃ left, left = h.size p - nunits := ⟨_, rfl⟩
  obtain ⟨q, isQ⟩ : ∃ q, q = p + headerSize * left := ⟨_, rfl⟩
  have member : p ∈ free := isP ▸ (laid.follows prevp before).1
  rw [← isP, ← isLeft, ← isQ]
  rw [← isP] at fits
  have notBase : p ≠ h.base := by
    rintro rfl
    rw [laid.empty] at fits
    omega
  have inBlocks : p ∈ h.blocks free live := mem_blocks_free member notBase
  have bound := laid.end_lt laid.tiles inBlocks
  have inside : 0 < headerSize * left ∧ headerSize * left < headerSize * h.size p ∧
      headerSize * h.size p - headerSize * left = headerSize * nunits := by
    unfold headerSize
    omega
  have notFree : q ∉ free := by
    intro isFree
    have past := laid.node_outside inBlocks isFree (by omega)
    omega
  have absent : ∀ b ∈ h.blocks free live, b ≠ q := by
    rintro b there rfl
    have past := laid.tiles.apart p inBlocks b there (by omega)
    omega
  have qBase : h.base ≠ q := fun same => notFree (same ▸ laid.listed)
  have qNe : q ≠ p := by omega
  have taken : h.take prevp nunits = (q + headerSize,
      { (h.setSize p left).setSize q nunits with freep := prevp }) := by
    have start : headerAt p left = q := isQ ▸ headerAt_eq (by omega)
    simp only [take]
    rw [← isP, if_neg (by omega), ← isLeft, start, headerAt_eq, Nat.mul_one]
    unfold headerSize at *
    omega
  have kept : ∀ b, b ≠ p → b ≠ q →
      update (update h.size p left) q nunits b = h.size b := by
    intro b notP notQ
    rw [update_of_ne notQ, update_of_ne notP]
  have atP : update (update h.size p left) q nunits p = left := by
    rw [update_of_ne qNe.symm, update_self]
  rw [taken]
  refine ⟨rfl, fun isLive => absent q (mem_blocks_live isLive) rfl, ?_, ⟨free, ?_⟩, ?_⟩
  · exact update_self _ _ _
  · refine ⟨⟨⟨laid.base, laid.bounded, laid.away⟩, laid.listed, ?_, ?_, ?_, ?_⟩, before,
      laid.follows, ?_⟩
    · exact (kept h.base notBase.symm qBase).trans laid.empty
    · rintro b (rfl | isLive)
      · exact notFree
      · exact laid.separate b isLive
    · have split := laid.tiles.split inBlocks inside.1 inside.2.1
      rw [← isQ, inside.2.2] at split
      show Tiles (h.blocks _ _) _ h.space
      rw [blocks_use]
      apply split.congr
      intro b there
      by_cases atQ : b = q
      · subst atQ
        simp only [setSize, update_self]
      · by_cases isP : b = p
        · subst isP
          simp only [setSize, update_of_ne atQ, update_self]
        · simp only [setSize, update_of_ne atQ, update_of_ne isP]
    · show ∀ b ∈ h.blocks _ _, _
      rw [blocks_use]
      rintro b (rfl | there)
      · rw [isQ]
        exact Nat.dvd_add (laid.aligned p inBlocks) (Nat.dvd_mul_right _ _)
      · exact laid.aligned b there
    · intro b isFree notB c there touches
      have notQ : b ≠ q := fun same => notFree (same ▸ isFree)
      by_cases isP : b = p
      · subst isP
        have ends : b + headerSize * left = c := by
          rw [← touches]
          exact congrArg (fun n => b + headerSize * n) atP.symm
        exact notFree (isQ ▸ ends ▸ there)
      · have ends : b + headerSize * h.size b = c := by
          rw [← touches]
          exact congrArg (fun n => b + headerSize * n) (kept b isP notQ).symm
        exact laid.merged b isFree notB c there ends
  · intro b isLive
    exact kept b (fun same => laid.separate b isLive (same ▸ member))
      (absent b (mem_blocks_live isLive))

theorem Laid.take_ok (laid : h.Laid free live) (some : 0 < nunits) (before : prevp ∈ free)
    (fits : nunits ≤ h.size (h.ptr prevp)) : ∃ bp, Took h live nunits (h.take prevp nunits) bp := by
  rcases Nat.eq_or_lt_of_le fits with whole | part
  · exact ⟨_, laid.take_whole some before whole.symm⟩
  · exact ⟨_, laid.take_end some before part⟩

/-- The search of `malloc` comes to a block that is large enough before it has been around, or asks
for more memory when none is. -/
theorem Laid.mallocLoop_eq (laid : h.Laid free live) (sbrk : Option Nat) (nunits rounds : Nat)
    (before : prevp ∈ free) (enough : Follows.distance (2 ^ 32) h.freep prevp < rounds) :
    (∃ q ∈ free, nunits ≤ h.size (h.ptr q) ∧
      mallocLoop sbrk nunits rounds h prevp = .ok (h.take q nunits)) ∨
    ((∀ c ∈ free, Follows.distance (2 ^ 32) h.freep c < Follows.distance (2 ^ 32) h.freep prevp →
        h.size c < nunits) ∧ h.size h.freep < nunits ∧
      ∃ left, rounds ≤ left + Follows.distance (2 ^ 32) h.freep prevp + 1 ∧
        mallocLoop sbrk nunits rounds h prevp = (do
          let (p, h) ← h.morecore sbrk nunits
          if p = 0 then pure (0, h) else mallocLoop sbrk nunits left h p)) := by
  induction rounds generalizing prevp with
  | zero => omega
  | succ rounds ih =>
    obtain ⟨nextMember, nearest⟩ := laid.follows prevp before
    rw [mallocLoop]
    split
    case isTrue fits => exact .inl ⟨prevp, before, fits, rfl⟩
    case isFalse small =>
      split
      case isTrue around =>
        refine .inr ⟨?_, by rw [← around]; omega, rounds, by omega, rfl⟩
        intro c there ahead
        by_cases same : c = h.freep
        · rw [same, ← around]
          omega
        · rw [around] at nearest
          exact absurd ahead (Follows.not_ahead (laid.node_lt there).2 (nearest c there) same)
      case isFalse further =>
        have closer := Follows.distance_lt (laid.node_lt before).2 (laid.node_lt nextMember).2
          (nearest h.freep laid.roving) further
        rcases ih nextMember (by omega) with found | ⟨none, last, left, bound, same⟩
        · exact .inl found
        · refine .inr ⟨?_, last, left, by omega, same⟩
          intro c there ahead
          by_cases here : c = h.ptr prevp
          · rw [here]
            omega
          · exact none c there (Follows.distance_ahead (laid.node_lt nextMember).2
              (laid.node_lt there).2 ahead (nearest c there) here)

theorem Laid.mallocLoop_freep (laid : h.Laid free live) (sbrk : Option Nat) (nunits rounds : Nat)
    (enough : 2 ^ 32 ≤ rounds) :
    (∃ q ∈ free, nunits ≤ h.size (h.ptr q) ∧
      mallocLoop sbrk nunits rounds h h.freep = .ok (h.take q nunits)) ∨
    ((∀ c ∈ free, h.size c < nunits) ∧
      ∃ left, rounds ≤ left + 2 ^ 32 ∧
        mallocLoop sbrk nunits rounds h h.freep = (do
          let (p, h) ← h.morecore sbrk nunits
          if p = 0 then pure (0, h) else mallocLoop sbrk nunits left h p)) := by
  have address := laid.node_lt laid.roving
  have round := Follows.distance_lt_bound (c := h.freep) address.2
  rcases laid.mallocLoop_eq sbrk nunits rounds laid.roving (by omega) with
    found | ⟨none, last, left, bound, same⟩
  · exact .inl found
  · refine .inr ⟨?_, left, by omega, same⟩
    intro c there
    by_cases here : c = h.freep
    · rw [here]
      exact last
    · exact none c there (Follows.distance_lt_self address.2 (laid.node_lt there).2 here)

/-- `malloc` finds a block, after it has asked for memory if need be, unless there is no more
memory. -/
theorem Laid.malloc_ok {sbrk : Option Nat} (laid : h.Laid free live) (some : 0 < nunits)
    (few : nunits ≤ 2 ^ 28)
    (given : ∀ a ∈ sbrk, h.Fresh a (moreBytes nunits) ∧ a + moreBytes nunits ≠ h.base) :
    (sbrk = none ∧ mallocLoop sbrk nunits heapRounds h h.freep = .ok (0, h)) ∨
      ∃ r bp, mallocLoop sbrk nunits heapRounds h h.freep = .ok r ∧ Took h live nunits r bp := by
  have rounds : 2 ^ 33 ≤ heapRounds := by decide
  rcases laid.mallocLoop_freep sbrk nunits heapRounds (by omega) with
    ⟨q, before, fits, found⟩ | ⟨_, left, bound, same⟩
  · obtain ⟨bp, took⟩ := laid.take_ok some before fits
    exact .inr ⟨_, bp, found, took⟩
  cases sbrk with
  | none => exact .inl ⟨rfl, same⟩
  | some a =>
    obtain ⟨fresh, clear⟩ := given a rfl
    obtain ⟨h', free', more, after, ⟨b, bMember, large⟩, kept⟩ := laid.morecore_ok few fresh clear
    have address := after.node_lt after.roving
    rw [more, ok_bind] at same
    simp only [if_neg (show ¬ h'.freep = 0 by omega)] at same
    rw [same]
    -- The second search ends at the new block at the latest.
    rcases after.mallocLoop_freep (Option.some a) nunits left (by omega) with
      ⟨q, before, fits, found⟩ | ⟨none, _⟩
    · obtain ⟨bp, took⟩ := after.take_ok some before fits
      exact .inr ⟨_, bp, found, took.pointer, took.fresh, took.size, took.laid,
        fun b isLive => (took.kept b isLive).trans (kept b isLive)⟩
    · have short := none b bMember
      omega

/-- `base` alone is the list when `malloc` is called first. -/
theorem start_laid (unused : h.freep = 0) (address : 0 < h.base ∧ h.base < 2 ^ 32)
    (nothing : h.obtained = []) : h.start.Laid {h.base} ∅ := by
  have same : h.start = { (h.setPtr h.base h.base).setSize h.base 0 with freep := h.base } :=
    if_pos unused
  have noSpace : ∀ x, x ∉ h.space := by
    rintro x ⟨r, member, _⟩
    rw [nothing] at member
    cases member
  have noBlocks : ∀ b, b ∉ h.blocks {h.base} ∅ := by
    rintro b (⟨atBase, other⟩ | isLive)
    · exact other atBase
    · exact isLive
  rw [same]
  refine ⟨⟨⟨address, ?_, ?_⟩, rfl, update_self _ _ _, ?_, ⟨?_, ?_, ?_⟩, ?_⟩, rfl, ?_, ?_⟩
  · exact fun x there => absurd there (noSpace x)
  · exact fun x there => absurd there (noSpace x)
  · exact fun b isLive => absurd isLive (Set.notMem_empty b)
  · exact fun b member => absurd member (noBlocks b)
  · exact fun a member => absurd member (noBlocks a)
  · intro x
    constructor
    · exact fun there => absurd there (noSpace x)
    · rintro ⟨b, member, _⟩
      exact absurd member (noBlocks b)
  · exact fun b member => absurd member (noBlocks b)
  · rintro a rfl
    have next : update h.ptr h.base h.base h.base = h.base := update_self _ _ _
    refine ⟨next, ?_⟩
    rintro c rfl
    show ¬ Inside h.base h.base (update h.ptr h.base h.base h.base)
    rw [next]
    unfold Inside
    omega
  · exact fun b atBase other => absurd atBase other

/-- What the program writes to a block in use changes no header. -/
theorem Laid.store (laid : h.Laid free live) (ptr size : Nat) (member : b ∈ live)
    (lower : b + headerSize ≤ a) (upper : a + headerSize ≤ b + headerSize * h.size b) :
    ((h.setPtr a ptr).setSize a size).Laid free live ∧
      ∀ c ∈ live, ((h.setPtr a ptr).setSize a size).size c = h.size c := by
  have long : 0 < headerSize := by decide
  have absent : ∀ c ∈ h.blocks free live, c ≠ a := by
    rintro c there rfl
    have past := laid.tiles.apart b (mem_blocks_live member) c there (by omega)
    omega
  have notFree : ∀ c ∈ free, c ≠ a := by
    rintro c there rfl
    have past := laid.node_outside (mem_blocks_live member) there (by omega)
    omega
  refine ⟨⟨⟨⟨laid.base, laid.bounded, laid.away⟩, laid.listed, ?_, laid.separate, ?_, laid.aligned⟩,
    laid.roving, ?_, ?_⟩, ?_⟩
  · exact (update_of_ne (notFree _ laid.listed) _ _).trans laid.empty
  · apply laid.tiles.congr
    intro c there
    exact congrArg (headerSize * ·) (update_of_ne (absent c there) _ _)
  · exact laid.follows.congr fun c there => update_of_ne (notFree c there) _ _
  · intro c there notBase d isFree touches
    simp only [setSize, setPtr, update_of_ne (notFree c there)] at touches
    exact laid.merged c there notBase d isFree touches
  · exact fun c isLive => update_of_ne (absent c (mem_blocks_live isLive)) _ _

end Heap

/-! ## Runs -/

variable {nbytes : Nat} {s : HeapUser}

namespace HeapUser

open Heap

/-- The headers of the blocks in use. -/
def inUse (s : HeapUser) : Set Nat := { b | b + headerSize ∈ s.live }

/-- What `sbrk` returns is `none` or fresh memory, and the program asks for at most `2 ^ 30` bytes,
frees pointers that are live and writes to blocks that are. -/
def Allowed (s : HeapUser) : HeapEvent → Prop
  | .malloc nbytes sbrk =>
    nbytes ≤ 2 ^ 30 ∧ ∀ a ∈ sbrk, s.heap.Fresh a (moreBytes (units nbytes))
  | .free ap => ap ∈ s.live
  | .store a _ _ => headerSize ∣ a ∧ ∃ ap ∈ s.live, ap ≤ a ∧
      a + headerSize ≤ ap - headerSize + headerSize * s.heap.size (ap - headerSize)

/-- The memory that `sbrk` returns does not end where `base` begins. -/
def Clear (s : HeapUser) : HeapEvent → Prop
  | .malloc nbytes sbrk => ∀ a ∈ sbrk, a + moreBytes (units nbytes) ≠ s.heap.base
  | _ => True

/-- A program that has not used its heap. -/
structure Unused (s : HeapUser) : Prop where
  /-- `freep` is null. -/
  null : s.heap.freep = 0
  /-- `base` has an address. -/
  base : 0 < s.heap.base ∧ s.heap.base < 2 ^ 32
  /-- No memory has been obtained. -/
  nothing : s.heap.obtained = []
  /-- No pointer has been returned. -/
  none : s.live = []

/-- The blocks are laid out for the pointers that are live. -/
structure Tidy (s : HeapUser) (free : Set Nat) : Prop where
  laid : s.heap.Laid free s.inUse
  nodup : s.live.Nodup
  behind : ∀ ap ∈ s.live, headerSize ≤ ap

theorem Tidy.mem_inUse {free : Set Nat} {ap : Nat} (tidy : s.Tidy free) (member : ap ∈ s.live) :
    ap - headerSize ∈ s.inUse := by
  show ap - headerSize + headerSize ∈ s.live
  rwa [Nat.sub_add_cancel (tidy.behind ap member)]

/-- What a step with the heap does. -/
structure Serves (s s' : HeapUser) (event : HeapEvent) : Prop where
  /-- The blocks that stay in use keep their sizes. -/
  kept : ∀ ap ∈ s.live, ap ∈ s'.live →
    s'.heap.size (ap - headerSize) = s.heap.size (ap - headerSize)
  /-- `malloc` returns a new block that is large enough, or null when there is no memory. -/
  returned : ∀ nbytes sbrk, event = .malloc nbytes sbrk → (sbrk = none ∧ s'.live = s.live) ∨
    ∃ ap, s'.live = ap :: s.live ∧ ap ∉ s.live ∧
      nbytes ≤ headerSize * s'.heap.size (ap - headerSize) - headerSize

theorem units_room (few : nbytes + 16 ≤ 2 ^ 31) :
    0 < units nbytes ∧ units nbytes < 2 ^ 28 ∧
      nbytes ≤ headerSize * units nbytes - headerSize := by
  unfold units headerSize
  omega

/-- The heap is unused, or its blocks are laid out. -/
def Ready (s : HeapUser) : Prop := s.Unused ∨ ∃ free, s.Tidy free

theorem Ready.start (ready : s.Ready) :
    (∃ free, (⟨s.heap.start, s.live⟩ : HeapUser).Tidy free) ∧
      ∀ ap ∈ s.live, s.heap.start.size (ap - headerSize) = s.heap.size (ap - headerSize) := by
  rcases ready with unused | ⟨free, tidy⟩
  · have empty : (⟨s.heap.start, s.live⟩ : HeapUser).inUse = ∅ := by
      ext b
      simp [inUse, unused.none]
    refine ⟨⟨{s.heap.base}, ?_, by simp [unused.none], by simp [unused.none]⟩, by simp [unused.none]⟩
    rw [empty]
    exact start_laid unused.null unused.base unused.nothing
  · have address := tidy.laid.node_lt tidy.laid.roving
    have same : s.heap.start = s.heap := if_neg (by omega)
    rw [same]
    exact ⟨⟨free, tidy⟩, fun _ _ => rfl⟩

theorem Ready.malloc {sbrk : Option Nat} (ready : s.Ready) (small : nbytes + 16 ≤ 2 ^ 31)
    (fresh : ∀ a ∈ sbrk, s.heap.Fresh a (moreBytes (units nbytes)))
    (clear : s.Clear (.malloc nbytes sbrk)) :
    ∃ s', s.step (.malloc nbytes sbrk) = .ok s' ∧ s'.Ready ∧ Serves s s' (.malloc nbytes sbrk) := by
  obtain ⟨⟨free, tidy⟩, sizes⟩ := ready.start
  obtain ⟨some, few, room⟩ := units_room small
  have given : ∀ a ∈ sbrk, s.heap.start.Fresh a (moreBytes (units nbytes)) ∧
      a + moreBytes (units nbytes) ≠ s.heap.start.base := by
    intro a there
    unfold Heap.start
    split
    · exact ⟨fresh a there, clear a there⟩
    · exact ⟨fresh a there, clear a there⟩
  rcases tidy.laid.malloc_ok some few.le given with ⟨noMemory, same⟩ | ⟨⟨ap, heap⟩, bp, same, took⟩
  · refine ⟨⟨s.heap.start, s.live⟩, ?_, .inr ⟨free, tidy⟩, fun ap there _ => sizes ap there, ?_⟩
    · simp only [step, Heap.malloc]
      rw [same]
      rfl
    · rintro _ _ ⟨rfl, rfl⟩
      exact .inl ⟨noMemory, rfl⟩
  · obtain ⟨pointer, fresh, size, ⟨free', laid⟩, kept⟩ := took
    have long : 0 < headerSize := by decide
    obtain rfl : ap = bp + headerSize := pointer
    have back : bp + headerSize - headerSize = bp := Nat.add_sub_cancel _ _
    refine ⟨⟨heap, (bp + headerSize) :: s.live⟩, ?_, .inr ⟨free', ?_, ?_, ?_⟩, ?_, ?_⟩
    · simp only [step, Heap.malloc]
      rw [same]
      simp only [ok_bind, if_neg (show ¬ bp + headerSize = 0 by omega)]
      rfl
    · have grown : (⟨heap, (bp + headerSize) :: s.live⟩ : HeapUser).inUse = insert bp s.inUse := by
        ext b
        simp [inUse]
      rw [grown]
      exact laid
    · exact List.nodup_cons.mpr ⟨fresh, tidy.nodup⟩
    · intro ap member
      rcases List.mem_cons.mp member with rfl | old
      · omega
      · exact tidy.behind ap old
    · intro ap there _
      rw [← sizes ap there]
      exact kept _ (tidy.mem_inUse there)
    · rintro _ _ ⟨rfl, rfl⟩
      refine .inr ⟨bp + headerSize, rfl, fresh, ?_⟩
      rw [back]
      exact size ▸ room

theorem Ready.free {ap : Nat} (ready : s.Ready) (member : ap ∈ s.live) :
    ∃ s', s.step (.free ap) = .ok s' ∧ s'.Ready ∧ Serves s s' (.free ap) := by
  rcases ready with unused | ⟨free, tidy⟩
  · rw [unused.none] at member
    cases member
  have behind := tidy.behind ap member
  obtain ⟨heap, free', freed, laid, _, kept⟩ := tidy.laid.free_ok (tidy.mem_inUse member)
  rw [Nat.sub_add_cancel behind] at freed
  refine ⟨⟨heap, s.live.erase ap⟩, ?_, .inr ⟨free', ?_, ?_, ?_⟩, ?_, ?_⟩
  · simp only [step, freed, ok_bind]
    rfl
  · have shrunk : (⟨heap, s.live.erase ap⟩ : HeapUser).inUse = s.inUse \ {ap - headerSize} := by
      ext b
      show b + headerSize ∈ s.live.erase ap ↔ b + headerSize ∈ s.live ∧ b ≠ ap - headerSize
      have differ : b + headerSize ≠ ap ↔ b ≠ ap - headerSize := by omega
      rw [tidy.nodup.mem_erase_iff, differ, and_comm]
    rw [shrunk]
    exact laid
  · exact tidy.nodup.erase ap
  · exact fun other there => tidy.behind other (List.mem_of_mem_erase there)
  · intro other there stays
    have distinct := (tidy.nodup.mem_erase_iff.mp stays).1
    have otherBehind := tidy.behind other there
    exact kept _ (tidy.mem_inUse there) (by omega)
  · exact fun _ _ event => nomatch event

theorem Ready.store {ptr size : Nat} (ready : s.Ready) (allowed : s.Allowed (.store a ptr size)) :
    ∃ s', s.step (.store a ptr size) = .ok s' ∧ s'.Ready ∧ Serves s s' (.store a ptr size) := by
  obtain ⟨_, ap, member, lower, upper⟩ := allowed
  rcases ready with unused | ⟨free, tidy⟩
  · rw [unused.none] at member
    cases member
  have behind := tidy.behind ap member
  obtain ⟨laid, kept⟩ := tidy.laid.store ptr size (tidy.mem_inUse member) (by omega) upper
  exact ⟨_, rfl, .inr ⟨free, laid, tidy.nodup, tidy.behind⟩,
    fun other there _ => kept _ (tidy.mem_inUse there), fun _ _ event => nomatch event⟩

theorem Ready.step {event : HeapEvent} (ready : s.Ready) (allowed : s.Allowed event)
    (clear : s.Clear event) : ∃ s', s.step event = .ok s' ∧ s'.Ready ∧ Serves s s' event := by
  cases event with
  | malloc nbytes sbrk =>
    have few := allowed.1
    exact ready.malloc (by omega) allowed.2 clear
  | free ap => exact ready.free allowed
  | store a ptr size => exact ready.store allowed

theorem ready_run {s₀ : HeapUser} (unused : s₀.Unused)
    (run : Relation.ReflTransGen
      (Steps HeapUser.step fun s event => s.Allowed event ∧ s.Clear event) s₀ s) : s.Ready := by
  refine steps_invariant Ready ?_ (.inl unused) run
  intro state event next ready allowed stepped
  obtain ⟨s', returned, after, _⟩ := ready.step allowed.1 allowed.2
  rw [returned] at stepped
  exact Except.ok.inj stepped ▸ after

/-- After every run in which `sbrk` returns -1 or fresh memory that does not end where `base` begins,
and the program asks for at most `2 ^ 30` bytes at a time and frees pointers that are live: the free
list is one cycle in ascending order, no two blocks of it touch, and together with the blocks in use
they tile the memory obtained; and every further call returns, where `malloc` gives a block that is
large enough and the other blocks stay as they are. -/
theorem heap_tiled {s₀ s : HeapUser} (unused : s₀.Unused)
    (run : Relation.ReflTransGen
      (Steps HeapUser.step fun s event => s.Allowed event ∧ s.Clear event) s₀ s) :
    (s.Unused ∨ ∃ order, Cycle s.heap.ptr order ∧ s.heap.freep ∈ order ∧ s.heap.base ∈ order ∧
      (∀ b ∈ order, b ≠ s.heap.base → ∀ c ∈ order, b + headerSize * s.heap.size b ≠ c) ∧
      s.live.Nodup ∧ (∀ ap ∈ s.live, headerSize ≤ ap ∧ ap - headerSize ∉ order) ∧
      Tiles ({ b | b ∈ order ∧ b ≠ s.heap.base } ∪ { b | b + headerSize ∈ s.live })
        (fun b => headerSize * s.heap.size b) s.heap.space) ∧
    ∀ event, s.Allowed event → s.Clear event →
      ∃ s', s.step event = .ok s' ∧ Serves s s' event := by
  have ready := ready_run unused run
  refine ⟨?_, ?_⟩
  · rcases ready with start | ⟨free, tidy⟩
    · exact Or.inl start
    have laid := tidy.laid
    have finite : free.Finite := (Set.finite_lt_nat (2 ^ 32)).subset fun b there =>
      (laid.node_lt there).2
    obtain ⟨order, cycle, mem⟩ := laid.follows.cycle finite
    refine Or.inr ⟨order, cycle, (mem _).mpr laid.roving, (mem _).mpr laid.listed, ?_, tidy.nodup,
      ?_, ?_⟩
    · exact fun b there notBase c other => laid.merged b ((mem b).mp there) notBase c ((mem c).mp other)
    · exact fun ap member => ⟨tidy.behind ap member,
        fun there => laid.separate _ (tidy.mem_inUse member) ((mem _).mp there)⟩
    · have same : { b | b ∈ order ∧ b ≠ s.heap.base } ∪ { b | b + headerSize ∈ s.live } =
          s.heap.blocks free s.inUse := by
        ext b
        simp only [mem]
        rfl
      rw [same]
      exact laid.tiles
  · intro event allowed clear
    obtain ⟨s', returned, _, serves⟩ := ready.step allowed clear
    exact ⟨s', returned, serves⟩

instance decidableAllowed (s : HeapUser) (event : HeapEvent) : Decidable (s.Allowed event) :=
  match event with
  | .malloc _ _ => inferInstanceAs (Decidable (_ ∧ ∀ a ∈ _, _ ∣ a ∧ _ ∧ _ ∧ _ ∧ _))
  | .free _ => inferInstanceAs (Decidable (_ ∈ _))
  | .store _ _ _ => inferInstanceAs (Decidable (_ ∧ ∃ ap ∈ s.live, _ ∧ _))

instance decidableClear (s : HeapUser) (event : HeapEvent) : Decidable (s.Clear event) :=
  match event with
  | .malloc _ _ => inferInstanceAs (Decidable (∀ a ∈ _, _ ≠ _))
  | .free _ => inferInstanceAs (Decidable True)
  | .store _ _ _ => inferInstanceAs (Decidable True)

/-- A program whose `base` is at an address. -/
def atBase (base : Nat) : HeapUser := ⟨⟨base, fun _ => 0, fun _ => 0, 0, []⟩, []⟩

/-- Two blocks are taken from the end of one region, and the first one is freed. -/
theorem heap_tiled_twoBlocks : (atBase 4096).Unused ∧ ∃ s,
    run (guarded HeapUser.step (fun s event => s.Allowed event ∧ s.Clear event) .endless) (atBase 4096)
      [.malloc 20 (some 8192), .malloc 8 none, .store 40936 1 2, .free 40936] = .ok s ∧
    s.live = [40920] ∧ ∃ order, Cycle s.heap.ptr order ∧ s.heap.base ∈ order := by
  have unused : (atBase 4096).Unused := ⟨rfl, by decide, rfl, rfl⟩
  refine ⟨unused, ?_⟩
  have returns : ((run (guarded HeapUser.step (fun s event => s.Allowed event ∧ s.Clear event) .endless)
      (atBase 4096) [.malloc 20 (some 8192), .malloc 8 none, .store 40936 1 2, .free 40936]).map
        fun s => s.live).toOption = some [40920] := by
    decide +kernel
  obtain ⟨s, returned, live⟩ := exists_ok returns
  rcases (heap_tiled unused (run_guarded returned)).1 with none | ⟨order, cycle, _, base, _⟩
  · rw [none.none] at live
    cases live
  · exact ⟨s, returned, live, order, cycle, base⟩

/-- A region that ends where `base` begins: when it is free `base` is joined to it and leaves the
list, a block of the whole region then stays in the list when it is taken, and the next call returns
it again. -/
theorem heap_swallows_base : (atBase 40000).Unused ∧ ∃ s,
    Relation.ReflTransGen (Steps HeapUser.step Allowed) (atBase 40000) s ∧ s.live = [7240, 7240] := by
  refine ⟨⟨rfl, by decide, rfl, rfl⟩, ?_⟩
  have returns : ((run (guarded HeapUser.step Allowed .endless) (atBase 40000)
      [.malloc 8 (some 7232), .free 39992, .malloc 32760 none, .malloc 32760 none]).map
        fun s => s.live).toOption = some [7240, 7240] := by
    decide +kernel
  obtain ⟨s, returned, live⟩ := exists_ok returns
  exact ⟨s, run_guarded returned, live⟩

end HeapUser

end MemoryEncryption
