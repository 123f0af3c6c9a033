import MemoryEncryption.Kernel.ClockQueue
import MemoryEncryption.Verif.SecondChance
import Mathlib.Data.List.Nodup

/-!
# The kernel's clock queue against the user-level one

Both queues are driven by the same calls, over the same reference bits. They take
the same insertions step for step. They differ in removals: the kernel searches
empty nodes too, whose pointers are left over from earlier removals, and its shift
loop does not wrap at the end of the array. They agree through a run exactly when
every removal finds its page in use and not after the hand
(`queues_agree_iff_inPlace`).
-/

namespace MemoryEncryption.ClockAgreement

open ClockReference ClockRing Function Outcome

/-- Reference bits by entry address, and the pages encrypted so far, latest first. -/
structure Bits where
  ref : Nat → Bool
  encrypted : List Int

/-- The kernel queue's view of the entries. The kernel flips a victim's bytes through its user
mapping, so the hardware sets the victim's bit. -/
def entryOps (entry : Nat → Nat) : EntryOps Bits Nat where
  referenced
    | bits, some pte => .ok (bits.ref pte)
    | _, none => .error .nullDeref
  clearRef
    | bits, some pte => .ok { bits with ref := Function.update bits.ref pte false }
    | _, none => .error .nullDeref
  mencrypt bits va :=
    .ok ⟨Function.update bits.ref (entry (va / pgSize)) true,
      ((va / pgSize : Nat) : Int) :: bits.encrypted⟩

/-- The two queues, each with its entries. -/
structure Pair where
  queue : Queue Nat
  bits : Bits
  clock : Clock

/-- A call on both queues. -/
inductive Call where
  /-- Insert the page of an address. -/
  | insert (va : Nat)
  /-- Remove a page. -/
  | remove (page : Nat)

/-- The reference bits at the time of a call, arbitrary but the same for both queues, and the
call. -/
structure Action where
  /-- `PTE_A` of each entry. -/
  refs : Nat → Bool
  /-- The call. -/
  call : Call

/-- Give every entry of the user-level queue its reference bit. -/
def assignRefs (store : Store) (refs : Nat → Bool) : Store :=
  ⟨fun pte => if refs pte then store.mem pte ||| pteA else store.mem pte &&& ~~~pteA,
    store.encrypted⟩

/-- One call on both queues; `entry` gives the address of a page's entry. -/
def Pair.step (entry : Nat → Nat) (pair : Pair) (action : Action) : Except Halt Pair := do
  let bits := { pair.bits with ref := action.refs }
  let clock := { pair.clock with store := assignRefs pair.clock.store action.refs }
  match action.call with
  | .insert va =>
    let (queue, bits) ← cqEnset (entryOps entry) pair.queue bits va (entry (va / pgSize))
    let clock ← clkInsert clock (va / pgSize : Nat) (entry (va / pgSize))
    .ok ⟨queue, bits, clock⟩
  | .remove page =>
    let queue ← cqRemove pair.queue (entry page)
    let clock ← clkRemove clock page
    .ok ⟨queue, bits, clock⟩

/-- Both queues cleared, over any entries. -/
def startPair (refs : Nat → Bool) (ring : Dial Node) (mem : Nat → Word) : Pair :=
  ⟨cqInit, ⟨refs, []⟩, clkClear ⟨ring, ⟨mem, []⟩⟩⟩

/-- Only pages not in the queue are inserted, only pages in it are removed. -/
def Action.Admitted (pair : Pair) (action : Action) : Prop :=
  match action.call with
  | .insert va => ((va / pgSize : Nat) : Int) ∉ pair.clock.pages.map Node.vpn
  | .remove page => (page : Int) ∈ pair.clock.pages.map Node.vpn

instance (pair : Pair) (action : Action) : Decidable (action.Admitted pair) :=
  match held : action.call with
  | .insert va => decidable_of_iff (((va / pgSize : Nat) : Int) ∉ pair.clock.pages.map Node.vpn)
      (by rw [Action.Admitted, held])
  | .remove page => decidable_of_iff ((page : Int) ∈ pair.clock.pages.map Node.vpn)
      (by rw [Action.Admitted, held])

/-- A property of each action in the state it meets, along a whole run. -/
def Along (entry : Nat → Nat) (holds : Pair → Action → Prop) : Pair → List Action → Prop
  | _, [] => True
  | pair, action :: rest =>
    holds pair action ∧
      match pair.step entry action with
      | .ok next => Along entry holds next rest
      | .error _ => True

/-- A decidable property can be decided along a run. -/
def decideAlong (entry : Nat → Nat) (holds : Pair → Action → Prop)
    [∀ pair action, Decidable (holds pair action)] :
    (pair : Pair) → (actions : List Action) → Decidable (Along entry holds pair actions)
  | _, [] => isTrue trivial
  | pair, action :: rest =>
    match led : pair.step entry action with
    | .ok next =>
      have := decideAlong entry holds next rest
      decidable_of_iff (holds pair action ∧ Along entry holds next rest) (by rw [Along, led])
    | .error _ => decidable_of_iff (holds pair action) (by rw [Along, led]; simp)

instance (entry : Nat → Nat) (holds : Pair → Action → Prop)
    [∀ pair action, Decidable (holds pair action)] (pair : Pair) (actions : List Action) :
    Decidable (Along entry holds pair actions) := decideAlong entry holds pair actions

/-- Two nodes that stand for the same page, or are both empty. -/
def Same (entry : Nat → Nat) (node : Node) (kernel : CqNode Nat) : Prop :=
  (node.vpn = -1 ∧ kernel.empty = -1) ∨
    (kernel.empty ≠ -1 ∧ node.vpn = (kernel.va / pgSize : Nat) ∧
      node.pte = entry (kernel.va / pgSize) ∧ kernel.pte = some (entry (kernel.va / pgSize)))

/-- The queues hold the same pages in the same slots, with the same hand, and have evicted the
same victims. -/
structure Pair.Agree (entry : Nat → Nat) (pair : Pair) : Prop where
  rings : pair.clock.ring.Matches clockSize (Same entry) pair.queue
  victims : pair.clock.store.encrypted = pair.bits.encrypted

/-- Every call of a run returns, and the queues agree after it. -/
def AgreeThroughout (entry : Nat → Nat) : Pair → List Action → Prop
  | _, [] => True
  | pair, action :: rest =>
    ∃ next, pair.step entry action = .ok next ∧ next.Agree entry ∧ AgreeThroughout entry next rest

/-- A removal meets the kernel queue in a state it can handle: the first node with the page's
pointer is in use, and does not come after the hand. -/
def Action.InPlace (entry : Nat → Nat) (pair : Pair) (action : Action) : Prop :=
  match action.call with
  | .insert _ => True
  | .remove page => ∀ del ∈ pair.queue.find (entry page),
      (pair.queue.slot del).empty ≠ -1 ∧ (del : Int) ≤ pair.queue.hand

instance (entry : Nat → Nat) (pair : Pair) (action : Action) :
    Decidable (action.InPlace entry pair) :=
  match held : action.call with
  | .insert _ => isTrue (by rw [Action.InPlace, held]; trivial)
  | .remove page => decidable_of_iff (∀ del ∈ pair.queue.find (entry page),
      (pair.queue.slot del).empty ≠ -1 ∧ (del : Int) ≤ pair.queue.hand)
      (by rw [Action.InPlace, held])

/-! ## Slots and pages -/

theorem mem_pages_iff (clock : Clock) (page : Nat) :
    (page : Int) ∈ clock.pages.map Node.vpn ↔
      ∃ i < clockSize, (clock.ring.slot i).vpn = page := by
  simp only [Clock.pages, List.mem_map, List.mem_filter, Dial.entries, readFrom, List.mem_range]
  constructor
  · rintro ⟨_, ⟨⟨k, _, rfl⟩, _⟩, same⟩
    exact ⟨_, Nat.mod_lt _ (by decide), same⟩
  · rintro ⟨i, bound, same⟩
    obtain ⟨k, small, rfl⟩ := exists_position (clock.ring.next clockSize) bound
    refine ⟨_, ⟨⟨k, small, rfl⟩, ?_⟩, same⟩
    simp only [bne_iff_ne, ne_eq]
    omega

variable {gap : List Node} {i : Nat}

theorem slot_unique {clock : Clock} {queue : List Node} (ordered : clock.Ordered gap queue)
    {j : Nat} {page : Nat} (iBound : i < clockSize) (jBound : j < clockSize)
    (atI : (clock.ring.slot i).vpn = page) (atJ : (clock.ring.slot j).vpn = page) : i = j := by
  -- both slots stand in the queue part of the reading, whose pages are distinct
  have position : ∀ i < clockSize, (clock.ring.slot i).vpn = page →
      ∃ k, ∃ inside : k < queue.length, (queue[k]).vpn = page ∧
        (clock.ring.next clockSize + (gap.length + k)) % clockSize = i := by
    intro i bound same
    obtain ⟨k, small, rfl⟩ := exists_position (clock.ring.next clockSize) bound
    have inside : k < (gap ++ queue).length := by
      rw [← ordered.shape]
      simpa [Dial.entries] using small
    have entry : ((gap ++ queue)[k]).vpn = page := by
      simp only [← ordered.shape]
      simpa [Dial.entries] using same
    have past : gap.length ≤ k := by
      by_contra early
      rw [List.getElem_append_left (by omega)] at entry
      have blank := ordered.vacant _ (List.getElem_mem (show k < gap.length by omega))
      omega
    rw [List.getElem_append_right past] at entry
    rw [List.length_append] at inside
    exact ⟨k - gap.length, by omega, entry, by rw [Nat.add_sub_cancel' past]⟩
  obtain ⟨k, kInside, kPage, rfl⟩ := position i iBound atI
  obtain ⟨l, lInside, lPage, rfl⟩ := position j jBound atJ
  have kMapped : k < (queue.map Node.vpn).length := by simpa using kInside
  have lMapped : l < (queue.map Node.vpn).length := by simpa using lInside
  have same : k = l := (List.Nodup.getElem_inj_iff ordered.distinct).mp
    (show (queue.map Node.vpn)[k] = (queue.map Node.vpn)[l] by simp [kPage, lPage])
  rw [same]

/-! ## Insertion -/

/-- The stores while an insertion runs: the same reference bits and the same victims. -/
def SameRefs (store : Store) (bits : Bits) : Prop :=
  (∀ pte, has (store.mem pte) pteA = bits.ref pte) ∧ store.encrypted = bits.encrypted

theorem assignRefs_same (store : Store) (bits : Bits) (refs : Nat → Bool)
    (victims : store.encrypted = bits.encrypted) :
    SameRefs (assignRefs store refs) { bits with ref := refs } := by
  refine ⟨fun pte => ?_, victims⟩
  simp only [assignRefs, has_pteA]
  cases refs pte <;> simp [pteA]

/-- The two insertion loops take the same decisions on nodes of the same pages. -/
theorem policies_inStep (entry : Nat → Nat) :
    policy.InStep (cqPolicy (entryOps entry)) (Same entry) SameRefs
      (fun store bits => store.encrypted = bits.encrypted) where
  empty := by
    rintro node kernel (⟨blank, free⟩ | ⟨used, page, -, -⟩)
    · simp [policy, cqPolicy, blank, free]
    · have occupied : node.vpn ≠ -1 := by
        have bound := Int.natCast_nonneg (kernel.va / pgSize)
        omega
      simp [policy, cqPolicy, used, occupied]
  referenced := by
    rintro store bits node kernel ⟨refs, -⟩ (⟨blank, -⟩ | ⟨-, -, pointer, target⟩) occupied
    · simp [policy, blank] at occupied
    · simp only [policy, cqPolicy, entryOps, target, pointer, refs]
  clear := by
    rintro store bits node kernel cleared ⟨refs, victims⟩
      (⟨blank, -⟩ | ⟨-, -, pointer, target⟩) occupied reset
    · simp [policy, blank] at occupied
    · simp only [policy, Except.ok.injEq] at reset
      subst reset
      simp only [cqPolicy, entryOps, target]
      refine ⟨_, rfl, fun pte => ?_, victims⟩
      simp only [clearRef, pointer, has_pteA, update_apply]
      split
      · simp [pteA]
      · rw [← has_pteA, refs]
  evict := by
    rintro store bits node kernel evicted ⟨refs, victims⟩
      (⟨blank, -⟩ | ⟨-, page, -, -⟩) occupied disposed
    · simp [policy, blank] at occupied
    · simp only [policy, Except.ok.injEq] at disposed
      subst disposed
      refine ⟨_, rfl, ?_⟩
      simp only [ClockReference.mencrypt]
      split <;> simp [page, victims]
  weaken := fun agreed => agreed.2

theorem same_fill (entry : Nat → Nat) (va : Nat) {node : Node} {kernel : CqNode Nat}
    (same : Same entry node kernel) :
    Same entry ⟨(va / pgSize : Nat), entry (va / pgSize)⟩
      (cqFill va (entry (va / pgSize)) kernel) := by
  rcases same with ⟨-, free⟩ | ⟨used, -, -, -⟩
  · exact .inr ⟨by simp [cqFill, free], rfl, rfl, rfl⟩
  · exact .inr ⟨by simp [cqFill, used], rfl, rfl, rfl⟩

theorem mdecrypt_encrypted (store : Store) (pte : Nat) :
    (ClockReference.mdecrypt store pte).encrypted = store.encrypted := by
  unfold ClockReference.mdecrypt
  split <;> rfl

variable {pair : Pair}

theorem not_holds {entry : Nat → Nat} (injective : Function.Injective entry)
    (agree : pair.Agree entry) {page : Nat} (absent : (page : Int) ∉ pair.clock.pages.map Node.vpn) :
    pair.queue.holds (entry page) = false := by
  by_contra found
  rw [Bool.not_eq_false, Queue.holds, List.any_eq_true] at found
  obtain ⟨i, small, hit⟩ := found
  have bound := List.mem_range.mp small
  simp only [Bool.and_eq_true, beq_iff_eq, bne_iff_ne] at hit
  apply absent
  rw [mem_pages_iff]
  rcases agree.rings.slots i bound with ⟨-, free⟩ | ⟨-, number, -, target⟩
  · exact absurd free hit.2
  · have same := injective (Option.some.inj (hit.1 ▸ target))
    exact ⟨i, bound, by rw [number, same]⟩

/-- The user-level queue is ordered, or still as `clk_clear` left it. -/
structure Settled (clock : Clock) (gap queue : List Node) : Prop where
  shape : clock.ring.entries clockSize = gap ++ queue
  vacant : ∀ node ∈ gap, node.vpn = -1
  resident : ∀ node ∈ queue, 0 ≤ node.vpn
  distinct : (queue.map Node.vpn).Nodup
  hand : queue ≠ [] → 0 ≤ clock.ring.hand ∧ clock.ring.hand < clockSize

theorem Settled.of_ordered {clock : Clock} {queue : List Node} (ordered : clock.Ordered gap queue) :
    Settled clock gap queue :=
  ⟨ordered.shape, ordered.vacant, ordered.resident, ordered.distinct, fun _ => ordered.hand⟩

/-- An admitted insertion returns from both queues and leaves them in agreement. -/
theorem insert_agrees {entry : Nat → Nat} (injective : Function.Injective entry) {queue : List Node}
    (agree : pair.Agree entry) (settled : Settled pair.clock gap queue) {refs : Nat → Bool}
    {va : Nat} (absent : ((va / pgSize : Nat) : Int) ∉ pair.clock.pages.map Node.vpn) :
    ∃ next gap' queue', pair.step entry ⟨refs, .insert va⟩ = .ok next ∧ next.Agree entry ∧
      Settled next.clock gap' queue' := by
  let clock : Clock := { pair.clock with store := assignRefs pair.clock.store refs }
  have pages : pair.clock.pages = queue := by
    rw [Clock.pages, settled.shape]
    exact filter_shape settled.vacant settled.resident
  obtain ⟨next, gap', queue', inserted, ordered, -⟩ := Clock.Ordered.insert
    (show clock.ring.entries clockSize = gap ++ queue from settled.shape) settled.vacant
    settled.resident settled.distinct (entry (va / pgSize)) (Int.natCast_nonneg (va / pgSize))
    (pages ▸ absent)
  -- the user-level loop is known to end; the kernel's follows it
  have unfolded := inserted
  rw [clkInsert] at unfolded
  obtain ⟨⟨ring, store⟩, swept, rest⟩ := bind_eq_ok.mp unfolded
  obtain rfl : (⟨ring, ClockReference.mdecrypt store (entry (va / pgSize))⟩ : Clock) = next :=
    Except.ok.inj rest
  obtain ⟨queue'', bits, kernel, rings, victims⟩ := sweep_matches (policies_inStep entry)
    (by decide) (same_fill entry va) agree.rings
    (assignRefs_same pair.clock.store pair.bits refs agree.victims) swept
  refine ⟨⟨queue'', bits, _⟩, gap', queue', ?_, ⟨rings, ?_⟩, .of_ordered ordered⟩
  · simp only [Pair.step, cqEnset, not_holds injective agree absent, Bool.false_eq_true,
      ↓reduceIte, kernel, ok_bind]
    change (clkInsert clock _ _ >>= _) = _
    rw [inserted]
    rfl
  · rw [mdecrypt_encrypted]
    exact victims

/-! ## Removal -/

section Shift

variable {α : Type}

theorem shiftDown_eq_closeGap {hand fuel : Nat} (before : i ≤ hand) (inside : hand < clockSize)
    (slot : Nat → CqNode α) :
    shiftDown hand fuel slot i = closeGap Halt.endless clockSize hand fuel slot i := by
  induction fuel generalizing i slot with
  | zero => rfl
  | succ fuel ih =>
    rw [shiftDown, closeGap]
    by_cases last : i = hand
    · simp [last]
    · rw [if_neg (by omega), if_neg (by omega), if_neg last,
        Nat.mod_eq_of_lt (show i + 1 < clockSize by omega)]
      exact ih (by omega) _

theorem shiftDown_past {hand : Int} {fuel : Nat} (past : hand < i) (enough : clockSize < fuel + i)
    (bound : i ≤ clockSize) (slot : Nat → CqNode α) :
    shiftDown hand fuel slot i = .error .outOfBounds := by
  induction fuel generalizing i slot with
  | zero => omega
  | succ fuel ih =>
    rw [shiftDown, if_neg (by omega)]
    by_cases outside : clockSize ≤ i
    · rw [if_pos outside]
    · rw [if_neg outside]
      exact ih (by omega) (by omega) (by omega) _

end Shift

theorem find_some {queue : Queue Nat} {pte del : Nat} (found : queue.find pte = some del) :
    del < clockSize ∧ (queue.slot del).pte = some pte ∧
      ∀ i < del, (queue.slot i).pte ≠ some pte := by
  rw [Queue.find, List.find?_range_eq_some] at found
  obtain ⟨hit, inside, earlier⟩ := found
  refine ⟨List.mem_range.mp inside, by simpa using hit, fun i bound => ?_⟩
  simpa using earlier i bound

/-- The kernel's search finds the pointer of every page in the queue. -/
theorem exists_find {entry : Nat → Nat} (agree : pair.Agree entry) {page r : Nat}
    (bound : r < clockSize) (number : (pair.clock.ring.slot r).vpn = page) :
    (pair.queue.slot r).empty ≠ -1 ∧ (pair.queue.slot r).va / pgSize = page ∧
      ∃ del, pair.queue.find (entry page) = some del ∧ del ≤ r := by
  rcases agree.rings.slots r bound with ⟨blank, -⟩ | ⟨used, same, -, target⟩
  · omega
  · have address : (pair.queue.slot r).va / pgSize = page := by
      rw [number] at same
      exact (Int.ofNat.inj same).symm
    refine ⟨used, address, ?_⟩
    rw [address] at target
    cases searched : pair.queue.find (entry page) with
    | none =>
      rw [Queue.find, List.find?_eq_none] at searched
      exact absurd (by simpa using target) (searched r (List.mem_range.mpr bound))
    | some del =>
      refine ⟨del, rfl, ?_⟩
      by_contra later
      exact (find_some searched).2.2 r (by omega) target

/-- The kernel's queue after the nodes between `del` and the hand have moved down by one. -/
def removedQueue (queue : Queue Nat) (del hand : Nat) : Queue Nat :=
  ⟨Function.update (fun j => if del ≤ j ∧ j < hand then queue.slot (j + 1) else queue.slot j) hand
    { queue.slot hand with empty := -1 },
    if queue.hand = 0 then clockSize - 1 else queue.hand - 1⟩

/-- The kernel's removal when the first node with the pointer is not after the hand. -/
theorem cqRemove_straight {queue : Queue Nat} {pte del hand : Nat}
    (found : queue.find pte = some del) (before : del ≤ hand) (inside : hand < clockSize)
    (handed : queue.hand = hand) :
    cqRemove queue pte = .ok (removedQueue queue del hand) := by
  simp only [cqRemove, removedQueue, found, handed, Int.toNat_natCast]
  rw [shiftDown_eq_closeGap before inside, closeGap_straight _ before inside (by omega)]
  simp

/-- The user-level removal of a page whose slot is not after the hand. -/
theorem clkRemove_straight {clock : Clock} {queue : List Node} (ordered : clock.Ordered gap queue)
    {page slot hand : Nat} (bound : slot < clockSize) (number : (clock.ring.slot slot).vpn = page)
    (before : slot ≤ hand) (handed : clock.ring.hand = hand) :
    clkRemove clock page = .ok { clock with ring := ⟨update
      (fun j => if slot ≤ j ∧ j < hand then clock.ring.slot (j + 1) else clock.ring.slot j) hand
      { clock.ring.slot hand with vpn := -1 },
      if clock.ring.hand = 0 then clockSize - 1 else clock.ring.hand - 1⟩ } := by
  obtain ⟨found, searched, hit, missed⟩ :=
    findMatch_spec clock.ring page ordered.hand clockSize 0
  have inside : hand < clockSize := by
    have := ordered.hand.2
    omega
  cases found with
  | none =>
    obtain ⟨k, small, reached⟩ := exists_position clock.ring.hand.toNat bound
    exact absurd number (reached ▸ missed rfl k (by omega) (by omega))
  | some idx =>
    obtain ⟨idxBound, same⟩ := hit idx rfl
    obtain rfl := slot_unique ordered idxBound bound same number
    simp only [clkRemove, searched, ok_bind, handed, Int.toNat_natCast]
    rw [closeGap_straight _ before inside (by omega)]
    simp

/-- A removal that the kernel's queue can handle returns from both queues and leaves them in
agreement. -/
theorem remove_agrees {entry : Nat → Nat} {queue : List Node} (injective : Function.Injective entry)
    (agree : pair.Agree entry) (ordered : pair.clock.Ordered gap queue) {refs : Nat → Bool}
    {page : Nat} (present : (page : Int) ∈ pair.clock.pages.map Node.vpn)
    (inPlace : Action.InPlace entry pair ⟨refs, .remove page⟩) :
    ∃ next gap' queue', pair.step entry ⟨refs, .remove page⟩ = .ok next ∧ next.Agree entry ∧
      Settled next.clock gap' queue' := by
  obtain ⟨r, rBound, rNumber⟩ := (mem_pages_iff pair.clock page).mp present
  obtain ⟨-, -, del, found, -⟩ := exists_find agree rBound rNumber
  obtain ⟨used, before⟩ := inPlace del found
  obtain ⟨delBound, target, -⟩ := find_some found
  let clock : Clock := { pair.clock with store := assignRefs pair.clock.store refs }
  have clockOrdered : clock.Ordered gap queue :=
    ⟨ordered.shape, ordered.vacant, ordered.resident, ordered.distinct, ordered.hand⟩
  have number : (clock.ring.slot del).vpn = page := by
    rcases agree.rings.slots del delBound with ⟨-, free⟩ | ⟨-, same, -, pointer⟩
    · exact absurd free used
    · have equal := injective (Option.some.inj (target ▸ pointer))
      rw [show clock.ring.slot del = pair.clock.ring.slot del from rfl, same, ← equal]
  obtain ⟨hand, handed⟩ := Int.eq_ofNat_of_zero_le ordered.hand.1
  have inside : hand < clockSize := by
    have := ordered.hand.2
    omega
  have kernelHand : pair.queue.hand = hand := by rw [← agree.rings.hand, handed]
  have delLe : del ≤ hand := by omega
  have kernel := cqRemove_straight found delLe inside kernelHand
  have user := clkRemove_straight clockOrdered delBound number delLe
    (show clock.ring.hand = hand from handed)
  obtain ⟨next, gap', queue', removed, kept, -⟩ :=
    clockOrdered.remove (Int.natCast_nonneg page)
  have result := Except.ok.inj (user.symm.trans removed)
  refine ⟨⟨removedQueue pair.queue del hand, { pair.bits with ref := refs }, next⟩, gap', queue',
    ?_, ⟨⟨?_, ?_⟩, ?_⟩, .of_ordered kept⟩
  · simp only [Pair.step, kernel, ok_bind]
    change (clkRemove clock _ >>= _) = _
    rw [removed]
    rfl
  · rw [← result]
    simp only [removedQueue, kernelHand, show clock.ring.hand = hand from handed]
  · rw [← result]
    intro i bound
    simp only [removedQueue, update_apply]
    by_cases tail : i = hand
    · rw [if_pos tail, if_pos tail]
      exact .inl ⟨rfl, rfl⟩
    · rw [if_neg tail, if_neg tail]
      split
      · exact agree.rings.slots (i + 1) (by omega)
      · exact agree.rings.slots i bound
  · rw [← result]
    exact agree.victims

/-- After any other removal the kernel has left its array, or still holds the page. -/
theorem remove_disagrees {entry : Nat → Nat} {next : Pair} {queue : List Node}
    (agree : pair.Agree entry) (ordered : pair.clock.Ordered gap queue) {refs : Nat → Bool}
    {page : Nat} (present : (page : Int) ∈ pair.clock.pages.map Node.vpn)
    (misplaced : ¬ Action.InPlace entry pair ⟨refs, .remove page⟩)
    (stepped : pair.step entry ⟨refs, .remove page⟩ = .ok next) : ¬ next.Agree entry := by
  obtain ⟨r, rBound, rNumber⟩ := (mem_pages_iff pair.clock page).mp present
  obtain ⟨rUsed, rPage, del, found, rAfter⟩ := exists_find agree rBound rNumber
  obtain ⟨delBound, -, -⟩ := find_some found
  obtain ⟨hand, handed⟩ := Int.eq_ofNat_of_zero_le ordered.hand.1
  have inside : hand < clockSize := by
    have := ordered.hand.2
    omega
  have kernelHand : pair.queue.hand = hand := by rw [← agree.rings.hand, handed]
  obtain ⟨removed, kernel, stepped⟩ := bind_eq_ok.mp stepped
  by_cases before : del ≤ hand
  · -- the first match is a leftover pointer in an empty node
    have leftover : (pair.queue.slot del).empty = -1 := by
      by_contra used
      apply misplaced
      intro other same
      obtain rfl := Option.some.inj (found.symm.trans same)
      exact ⟨used, by omega⟩
    have apart : r ≠ del := fun same => rUsed (same ▸ leftover)
    obtain rfl := Except.ok.inj ((cqRemove_straight found before inside kernelHand).symm.trans
      kernel)
    obtain ⟨clock, user, stepped⟩ := bind_eq_ok.mp stepped
    cases stepped
    intro agreed
    -- the page's own node has moved by at most one slot and is still in use
    obtain ⟨r', bound', moved⟩ : ∃ r' < clockSize,
        (removedQueue pair.queue del hand).slot r' = pair.queue.slot r := by
      by_cases shifted : r ≤ hand
      · refine ⟨r - 1, by omega, ?_⟩
        simp only [removedQueue, update_apply]
        rw [if_neg (by omega), if_pos (by omega), show r - 1 + 1 = r by omega]
      · refine ⟨r, rBound, ?_⟩
        simp only [removedQueue, update_apply]
        rw [if_neg (by omega), if_neg (by omega)]
    have still : (clock.ring.slot r').vpn = page := by
      rcases agreed.rings.slots r' bound' with ⟨-, free⟩ | ⟨-, same, -, -⟩
      · rw [moved] at free
        exact absurd free rUsed
      · rw [moved, rPage] at same
        exact same
    have clockOrdered : Clock.Ordered
        { pair.clock with store := assignRefs pair.clock.store refs } gap queue :=
      ⟨ordered.shape, ordered.vacant, ordered.resident, ordered.distinct, ordered.hand⟩
    obtain ⟨clock', gap', queue', removed', kept, step⟩ :=
      clockOrdered.remove (Int.natCast_nonneg page)
    obtain rfl := Except.ok.inj (user.symm.trans removed')
    have gone := (mem_pages_iff clock page).mpr ⟨r', bound', still⟩
    rw [kept.pages, show queue' = _ from step.remove_queue, List.mem_map] at gone
    obtain ⟨node, inside, number⟩ := gone
    have other := (List.mem_filter.mp inside).2
    simp [number] at other
  · have outside : shiftDown pair.queue.hand (clockSize + 1) pair.queue.slot del =
        .error .outOfBounds := shiftDown_past (by omega) (by omega) (by omega) _
    simp [cqRemove, found, outside] at kernel

/-! ## Runs -/

variable {actions : List Action}

/-- From queues in agreement, an admitted run keeps them in agreement exactly when every removal
on the way meets a state the kernel can handle. -/
theorem agreeThroughout_iff {entry : Nat → Nat} (injective : Function.Injective entry)
    {queue : List Node} (agree : pair.Agree entry) (settled : Settled pair.clock gap queue)
    (admitted : Along entry Action.Admitted pair actions) :
    AgreeThroughout entry pair actions ↔ Along entry (Action.InPlace entry) pair actions := by
  induction actions generalizing pair gap queue with
  | nil => simp [AgreeThroughout, Along]
  | cons action rest ih =>
    obtain ⟨allowed, later⟩ := admitted
    obtain ⟨refs, call⟩ := action
    -- once a step returns in agreement, both sides speak about the rest of the run
    have continued : ∀ next gap' queue', pair.step entry ⟨refs, call⟩ = .ok next →
        next.Agree entry → Settled next.clock gap' queue' →
        Action.InPlace entry pair ⟨refs, call⟩ →
        (AgreeThroughout entry pair (⟨refs, call⟩ :: rest) ↔
          Along entry (Action.InPlace entry) pair (⟨refs, call⟩ :: rest)) := by
      intro next gap' queue' stepped agreed kept inPlace
      rw [stepped] at later
      have tail := ih agreed kept later
      simp only [AgreeThroughout, Along, stepped, inPlace, true_and]
      rw [← tail]
      constructor
      · rintro ⟨other, same, -, remaining⟩
        cases same
        exact remaining
      · exact fun remaining => ⟨next, rfl, agreed, remaining⟩
    cases call with
    | insert va =>
      obtain ⟨next, gap', queue', stepped, agreed, kept⟩ :=
        insert_agrees injective agree settled allowed
      exact continued next gap' queue' stepped agreed kept trivial
    | remove page =>
      have pages : pair.clock.pages = queue := by
        rw [Clock.pages, settled.shape]
        exact filter_shape settled.vacant settled.resident
      have nonempty : queue ≠ [] := by
        rintro rfl
        simp [Action.Admitted, pages] at allowed
      have ordered : pair.clock.Ordered gap queue := ⟨settled.shape, settled.vacant,
        settled.resident, settled.distinct, settled.hand nonempty⟩
      by_cases inPlace : Action.InPlace entry pair ⟨refs, .remove page⟩
      · obtain ⟨next, gap', queue', stepped, agreed, kept⟩ :=
          remove_agrees injective agree ordered allowed inPlace
        exact continued next gap' queue' stepped agreed kept inPlace
      · simp only [AgreeThroughout, Along, inPlace, false_and, iff_false]
        rintro ⟨next, stepped, agreed, -⟩
        exact remove_disagrees agree ordered allowed inPlace stepped agreed

/-- The kernel's clock queue agrees with the user-level one through a run from two empty queues
exactly when every removal on the way finds, as the first node with the page's pointer, one that
is in use and not after the hand. -/
theorem queues_agree_iff_inPlace (entry : Nat → Nat) (injective : Function.Injective entry)
    (refs : Nat → Bool) (ring : Dial Node) (mem : Nat → Word) (actions : List Action)
    (admitted : Along entry Action.Admitted (startPair refs ring mem) actions) :
    AgreeThroughout entry (startPair refs ring mem) actions ↔
      Along entry (Action.InPlace entry) (startPair refs ring mem) actions := by
  have settled : Settled (startPair refs ring mem).clock
      ((startPair refs ring mem).clock.ring.entries clockSize) [] :=
    ⟨by simp, clkClear_entries _, by simp, by simp, by simp⟩
  refine agreeThroughout_iff injective ⟨⟨rfl, fun i _ => .inl ⟨rfl, rfl⟩⟩, rfl⟩ settled admitted

/-- Nine insertions into eight slots: the hand has gone round and stands on the first slot. -/
def fillAndEvict : List Action :=
  (List.range 9).map fun page => ⟨fun _ => false, .insert (page * pgSize)⟩

/-- Two empty queues over unreferenced entries, where a page's number is its entry's address. -/
def emptyPair : Pair := startPair (fun _ => false) ⟨fun _ => ⟨-1, 0⟩, -1⟩ (fun _ => 0)

/-- Removing the page on which the hand stands keeps the queues in agreement. -/
theorem fillAndEvict_remove_last_agrees :
    AgreeThroughout id emptyPair (fillAndEvict ++ [⟨fun _ => true, .remove 8⟩]) :=
  (queues_agree_iff_inPlace id Function.injective_id _ _ _ _ (by decide +kernel)).mpr
    (by decide +kernel)

theorem AgreeThroughout.returns {entry : Nat → Nat} (agree : AgreeThroughout entry pair actions) :
    (Outcome.run (Pair.step entry) pair actions).isOk = true := by
  induction actions generalizing pair with
  | nil => rfl
  | cons action rest ih =>
    obtain ⟨next, stepped, -, remaining⟩ := agree
    rw [Outcome.run, stepped]
    exact ih remaining

/-- Removing a page whose slot comes after the hand, an admitted call, takes the kernel's shift
loop out of its array: the queues do not agree throughout every run. -/
theorem queues_disagree_past_hand :
    Along id Action.Admitted emptyPair (fillAndEvict ++ [⟨fun _ => false, .remove 5⟩]) ∧
      ¬ AgreeThroughout id emptyPair (fillAndEvict ++ [⟨fun _ => false, .remove 5⟩]) := by
  refine ⟨by decide +kernel, fun agree => ?_⟩
  have returned := agree.returns
  revert returned
  decide +kernel

end MemoryEncryption.ClockAgreement
