import MemoryEncryption.Kernel.ClockReference

/-!
# The user-level clock queue is a second-chance FIFO

`Fifo` is the queue `clock.c` is meant to be: a list of pages, oldest first. An
insertion into a full list passes over the referenced pages at its head, moving
each to the tail without its bit, and evicts the first page that is not
referenced. The ring refines it: the empty nodes are exactly a cyclic block that
begins after the hand (`Clock.Ordered`), so the other nodes read from there form
the list, and every call of a run acts on that list as the abstract one does.
-/

namespace MemoryEncryption.ClockReference

open ClockRing

/-- The second-chance queue: its pages, oldest first, over the same entries. -/
structure Fifo where
  /-- Pages, oldest first. -/
  queue : List Node
  /-- Their page table entries. -/
  store : Store

/-- `Evicts queue store victim rest final`: referenced pages at the head lose their bit and move
to the tail, until the head is a page that is not referenced. -/
inductive Evicts : List Node → Store → Node → List Node → Store → Prop where
  /-- An unreferenced head is the victim. -/
  | take {node : Node} {rest : List Node} {store : Store}
    (idle : has (store.mem node.pte) pteA = false) : Evicts (node :: rest) store node rest store
  /-- A referenced head gets a second chance. -/
  | spare {node victim : Node} {rest final : List Node} {store last : Store}
    (used : has (store.mem node.pte) pteA = true)
    (later : Evicts (rest ++ [node]) (clearRef store node.pte) victim final last) :
    Evicts (node :: rest) store victim final last

/-- One action of the second-chance queue. -/
inductive Fifo.Step : Fifo → Action → Fifo → Prop where
  /-- A queue with room appends the decrypted page. -/
  | append {queue : List Node} {store : Store} {vpn : Int} {pte : Nat}
    (room : queue.length < clockSize) :
    Step ⟨queue, store⟩ (.insert vpn pte) ⟨queue ++ [⟨vpn, pte⟩], mdecrypt store pte⟩
  /-- A full queue evicts and encrypts a victim, then appends the decrypted page. -/
  | replace {queue rest : List Node} {store final : Store} {victim : Node} {vpn : Int} {pte : Nat}
    (full : queue.length = clockSize) (chosen : Evicts queue store victim rest final) :
    Step ⟨queue, store⟩ (.insert vpn pte)
      ⟨rest ++ [⟨vpn, pte⟩], mdecrypt (mencrypt final victim.vpn victim.pte) pte⟩
  /-- A removal drops that page and keeps the order of the others. -/
  | remove {queue : List Node} {store : Store} {vpn : Int} :
    Step ⟨queue, store⟩ (.remove vpn) ⟨queue.filter fun node => node.vpn != vpn, store⟩
  /-- Setting reference bits leaves the queue alone. -/
  | touch {queue : List Node} {store : Store} {chosen : Nat → Bool} :
    Step ⟨queue, store⟩ (.touch chosen) ⟨queue, touchAll store chosen⟩

theorem Fifo.Step.remove_queue {fifo next : Fifo} {vpn : Int}
    (step : Fifo.Step fifo (.remove vpn) next) :
    next.queue = fifo.queue.filter fun node => node.vpn != vpn := by
  cases step
  rfl

/-- A run of the second-chance queue. -/
inductive Fifo.Run : Fifo → List Action → Fifo → Prop where
  /-- Nothing done. -/
  | nil (fifo : Fifo) : Run fifo [] fifo
  /-- A step and the rest of the run. -/
  | cons {fifo middle final : Fifo} {action : Action} {rest : List Action}
    (first : Fifo.Step fifo action middle) (later : Run middle rest final) :
    Run fifo (action :: rest) final

/-- The list a ring stands for. -/
def Clock.fifo (clock : Clock) : Fifo := ⟨clock.pages, clock.store⟩

/-- The calls the queue is made for: page numbers are not negative, and an inserted page is not
in the queue. -/
def Action.Admitted (clock : Clock) : Action → Prop
  | .insert vpn _ => 0 ≤ vpn ∧ vpn ∉ clock.pages.map Node.vpn
  | .remove vpn => 0 ≤ vpn
  | .touch _ => True

instance (clock : Clock) : (action : Action) → Decidable (action.Admitted clock)
  | .insert vpn _ => inferInstanceAs (Decidable (0 ≤ vpn ∧ vpn ∉ clock.pages.map Node.vpn))
  | .remove vpn => inferInstanceAs (Decidable (0 ≤ vpn))
  | .touch _ => isTrue trivial

/-- Every action of a run is admitted in the state it meets. -/
def AdmittedFrom : Clock → List Action → Prop
  | _, [] => True
  | clock, action :: rest =>
    action.Admitted clock ∧
      match step clock action with
      | .ok next => AdmittedFrom next rest
      | .error _ => True

/-- Whether a run is admitted can be found by executing it. -/
def decideAdmittedFrom : (clock : Clock) → (actions : List Action) →
    Decidable (AdmittedFrom clock actions)
  | _, [] => isTrue trivial
  | clock, action :: rest =>
    match held : step clock action with
    | .ok next =>
      have := decideAdmittedFrom next rest
      decidable_of_iff (action.Admitted clock ∧ AdmittedFrom next rest)
        (by rw [AdmittedFrom, held])
    | .error _ =>
      decidable_of_iff (action.Admitted clock) (by rw [AdmittedFrom, held]; simp)

instance (clock : Clock) (actions : List Action) : Decidable (AdmittedFrom clock actions) :=
  decideAdmittedFrom clock actions

variable {action : Action}

theorem AdmittedFrom.later {clock next : Clock} {rest : List Action}
    (admitted : AdmittedFrom clock (action :: rest)) (stepped : step clock action = .ok next) :
    AdmittedFrom next rest := by
  have held := admitted.2
  rwa [stepped] at held

/-! ## The invariant -/

/-- The cyclic reading is a block of empty nodes followed by the queue, with distinct pages. -/
structure Clock.Ordered (clock : Clock) (gap queue : List Node) : Prop where
  shape : clock.ring.entries clockSize = gap ++ queue
  vacant : ∀ node ∈ gap, node.vpn = -1
  resident : ∀ node ∈ queue, 0 ≤ node.vpn
  distinct : (queue.map Node.vpn).Nodup
  hand : 0 ≤ clock.ring.hand ∧ clock.ring.hand < clockSize

variable {gap : List Node}

theorem filter_shape {queue : List Node} (vacant : ∀ node ∈ gap, node.vpn = -1)
    (resident : ∀ node ∈ queue, 0 ≤ node.vpn) :
    (gap ++ queue).filter (fun node => node.vpn != -1) = queue := by
  rw [List.filter_append, List.filter_eq_nil_iff.mpr, List.filter_eq_self.mpr, List.nil_append]
  · intro node member
    have bound := resident node member
    simp only [bne_iff_ne, ne_eq]
    omega
  · intro node member
    simp [vacant node member]

theorem Clock.Ordered.pages {clock : Clock} {queue : List Node} (ordered : clock.Ordered gap queue) :
    clock.pages = queue := by
  rw [Clock.pages, ordered.shape]
  exact filter_shape ordered.vacant ordered.resident

theorem Clock.Ordered.length_le {clock : Clock} {queue : List Node}
    (ordered : clock.Ordered gap queue) : queue.length ≤ clockSize := by
  have total := congrArg List.length ordered.shape
  simp only [Dial.entries, length_readFrom, List.length_append] at total
  omega

/-! ## Insertion -/

/-- A sweep over nodes that are all in use is an eviction, followed by filling the slot. -/
theorem sweeps_evicts {fill : Node → Node} {queue final : List Node} {store last : Store}
    (swept : Sweeps policy fill queue store final last)
    (resident : ∀ node ∈ queue, 0 ≤ node.vpn) :
    ∃ victim rest middle, Evicts queue store victim rest middle ∧
      final = rest ++ [fill victim] ∧ last = mencrypt middle victim.vpn victim.pte ∧
      (victim :: rest).Perm queue := by
  induction swept with
  | @place node rest store vacant =>
    have bound := resident node (by simp)
    simp only [policy, beq_iff_eq] at vacant
    omega
  | @replace node rest store evicted occupied idle disposed =>
    simp only [policy, Except.ok.injEq] at idle disposed
    exact ⟨node, rest, store, .take idle, rfl, disposed.symm, .refl _⟩
  | @spare node rest final store cleared last occupied used reset later ih =>
    simp only [policy, Except.ok.injEq] at used reset
    subst reset
    obtain ⟨victim, remaining, middle, chosen, shape, stored, same⟩ := ih (by
      intro other member
      exact resident other (by simpa [or_comm] using member))
    refine ⟨victim, remaining, middle, .spare used chosen, shape, stored, same.trans ?_⟩
    exact List.perm_append_singleton node rest

theorem policy_responsive : policy.Responsive (fun _ => True) (fun _ => True) where
  readable store node _ _ := ⟨_, rfl⟩
  clears store node _ _ _ := by
    refine ⟨_, rfl, trivial, ?_, ?_⟩
    · simp only [policy, clearRef, Function.update_self, has_pteA]
      simp [pteA]
    · intro other idle
      simp only [policy, clearRef, Except.ok.injEq, has_pteA] at idle ⊢
      by_cases same : other.pte = node.pte
      · simp [same, pteA]
      · rw [Function.update_of_ne same]
        exact idle
  evicts store node _ _ _ := ⟨_, rfl⟩

theorem clkInsert_sweeps (clock : Clock) (vpn : Int) (pte : Nat) :
    ∃ ring store, clkInsert clock vpn pte = .ok ⟨ring, mdecrypt store pte⟩ ∧
      Sweeps policy (fun _ => ⟨vpn, pte⟩) (clock.ring.entries clockSize) clock.store
        (ring.entries clockSize) store ∧ 0 ≤ ring.hand ∧ ring.hand < clockSize := by
  obtain ⟨ring, store, finished⟩ : ∃ ring store, sweep policy clockSize (fun _ => ⟨vpn, pte⟩)
      (clockSize + 1) clock.ring clock.store = .ok (ring, store) :=
    sweep_finishes policy_responsive (by decide) trivial (fun _ _ _ => trivial)
  refine ⟨ring, store, ?_, sweep_sweeps (by decide) finished, ?_⟩
  · rw [clkInsert, finished]
    rfl
  · exact sweep_hand (by decide) finished

/-- An insertion of a new page keeps the ring ordered and is one step of the queue. -/
theorem Clock.Ordered.insert {clock : Clock} {queue : List Node}
    (shape : clock.ring.entries clockSize = gap ++ queue) (vacant : ∀ node ∈ gap, node.vpn = -1)
    (resident : ∀ node ∈ queue, 0 ≤ node.vpn) (distinct : (queue.map Node.vpn).Nodup) {vpn : Int}
    (pte : Nat) (page : 0 ≤ vpn) (fresh : vpn ∉ queue.map Node.vpn) :
    ∃ next gap' queue', clkInsert clock vpn pte = .ok next ∧ next.Ordered gap' queue' ∧
      Fifo.Step ⟨queue, clock.store⟩ (.insert vpn pte) ⟨queue', next.store⟩ := by
  obtain ⟨ring, store, finished, swept, bounds⟩ := clkInsert_sweeps clock vpn pte
  rw [shape] at swept
  cases gap with
  | cons first gap =>
    -- the slot after the hand is empty, so the loop stops there
    have empty : policy.empty first = true := by simp [policy, vacant first (by simp)]
    have total := congrArg List.length shape
    simp only [Dial.entries, length_readFrom, List.length_append, List.length_cons] at total
    rw [List.cons_append] at swept
    generalize filled : ring.entries clockSize = reading at swept
    cases swept with
    | place _ =>
      refine ⟨_, gap, queue ++ [⟨vpn, pte⟩], finished, ⟨?_, ?_, ?_, ?_, bounds⟩,
        .append (by omega)⟩
      · simpa [List.append_assoc] using filled
      · exact fun node member => vacant node (by simp [member])
      · intro node member
        rcases List.mem_append.mp member with older | newest
        · exact resident node older
        · obtain rfl := List.mem_singleton.mp newest
          exact page
      · rw [List.map_append, List.map_singleton]
        exact List.nodup_append.mpr ⟨distinct, by simp, by
          intro other member last lastMember
          obtain rfl := List.mem_singleton.mp lastMember
          exact fun same => fresh (same ▸ member)⟩
    | replace occupied _ _ | spare occupied _ _ _ => simp [empty] at occupied
  | nil =>
    rw [List.nil_append] at swept shape
    have total := congrArg List.length shape
    simp only [Dial.entries, length_readFrom] at total
    obtain ⟨victim, rest, middle, chosen, filled, stored, same⟩ := sweeps_evicts swept resident
    subst stored
    refine ⟨_, [], rest ++ [⟨vpn, pte⟩], finished, ⟨?_, by simp, ?_, ?_, bounds⟩,
      .replace total.symm chosen⟩
    · simpa using filled
    · intro node member
      rcases List.mem_append.mp member with older | newest
      · exact resident node (same.mem_iff.mp (by simp [older]))
      · obtain rfl := List.mem_singleton.mp newest
        exact page
    · have pages := same.map Node.vpn
      have nodup := pages.nodup_iff.mpr distinct
      rw [List.map_cons, List.nodup_cons] at nodup
      rw [List.map_append, List.map_singleton]
      exact List.nodup_append.mpr ⟨nodup.2, by simp, by
        intro other member last lastMember
        obtain rfl := List.mem_singleton.mp lastMember
        intro equal
        subst equal
        exact fresh (pages.mem_iff.mp (by simp [member]))⟩

/-! ## Removal -/

/-- The search of a removal, from a hand on the ring, finds a node of the page if there is one. -/
theorem findMatch_spec (ring : Dial Node) (vpn : Int)
    (hand : 0 ≤ ring.hand ∧ ring.hand < clockSize) (rounds i : Nat) :
    ∃ found, findMatch ring vpn rounds i = .ok found ∧
      (∀ idx, found = some idx → idx < clockSize ∧ (ring.slot idx).vpn = vpn) ∧
      (found = none → ∀ k, i ≤ k → k < i + rounds →
        (ring.slot ((ring.hand.toNat + k) % clockSize)).vpn ≠ vpn) := by
  induction rounds generalizing i with
  | zero =>
    exact ⟨none, rfl, by simp, fun _ k lower upper => by omega⟩
  | succ rounds ih =>
    have index : (ring.hand + i).tmod clockSize = ((ring.hand.toNat + i) % clockSize : Nat) := by
      rw [Int.tmod_eq_emod_of_nonneg (by omega)]
      unfold clockSize
      omega
    have inside : (ring.hand.toNat + i) % clockSize < clockSize := Nat.mod_lt _ (by decide)
    rw [findMatch]
    simp only [index, Int.toNat_natCast]
    rw [if_neg (by omega)]
    by_cases equal : (ring.slot ((ring.hand.toNat + i) % clockSize)).vpn = vpn
    · rw [if_pos equal]
      refine ⟨_, rfl, ?_, by simp⟩
      intro idx same
      cases same
      exact ⟨inside, equal⟩
    · rw [if_neg equal]
      obtain ⟨found, finished, hit, missed⟩ := ih (i + 1)
      refine ⟨found, finished, hit, ?_⟩
      intro absent k lower upper
      by_cases first : k = i
      · subst first
        exact equal
      · exact missed absent k (by omega) (by omega)

/-- Erasing the position of a page from distinct pages filters that page out. -/
theorem eraseIdx_eq_filter {queue : List Node} {k : Nat} (bound : k < queue.length)
    (distinct : (queue.map Node.vpn).Nodup) :
    queue.eraseIdx k = queue.filter fun node => node.vpn != (queue[k]).vpn := by
  induction queue generalizing k with
  | nil => simp at bound
  | cons first rest ih =>
    rw [List.map_cons, List.nodup_cons] at distinct
    cases k with
    | zero =>
      simp only [List.eraseIdx_cons_zero, List.getElem_cons_zero, List.filter_cons, bne_self_eq_false,
        Bool.false_eq_true, ↓reduceIte]
      symm
      rw [List.filter_eq_self]
      intro node member
      simp only [bne_iff_ne, ne_eq]
      exact fun same => distinct.1 (same ▸ List.mem_map_of_mem member)
    | succ k =>
      simp only [List.length_cons, Nat.add_lt_add_iff_right] at bound
      have other : first.vpn ≠ (rest[k]).vpn := fun same =>
        distinct.1 (same ▸ List.mem_map_of_mem (List.getElem_mem bound))
      simp only [List.eraseIdx_cons_succ, List.getElem_cons_succ, List.filter_cons, bne_iff_ne,
        ne_eq, other, not_false_eq_true, ↓reduceIte]
      rw [ih bound distinct.2]

theorem filter_absent {queue : List Node} {vpn : Int} (absent : vpn ∉ queue.map Node.vpn) :
    (queue.filter fun node => node.vpn != vpn) = queue := by
  rw [List.filter_eq_self]
  intro node member
  simp only [bne_iff_ne, ne_eq]
  exact fun same => absent (same ▸ List.mem_map_of_mem member)

/-- A removal from a ring whose cyclic reading holds the page at position `k` erases that
position and puts the freed node in front. -/
theorem clkRemove_found {clock : Clock} {vpn : Int} {idx k : Nat}
    (hand : 0 ≤ clock.ring.hand ∧ clock.ring.hand < clockSize)
    (found : findMatch clock.ring vpn clockSize 0 = .ok (some idx)) (bound : k < clockSize)
    (position : (clock.ring.next clockSize + k) % clockSize = idx) :
    ∃ next freed, clkRemove clock vpn = .ok next ∧ freed.vpn = -1 ∧ next.store = clock.store ∧
      next.ring.entries clockSize = freed :: (clock.ring.entries clockSize).eraseIdx k ∧
      0 ≤ next.ring.hand ∧ next.ring.hand < clockSize := by
  have after : clock.ring.next clockSize = (clock.ring.hand.toNat + 1) % clockSize := by
    unfold Dial.next clockSize
    omega
  have tail : (clock.ring.next clockSize + (clockSize - 1)) % clockSize =
      clock.ring.hand.toNat := by
    rw [after]
    unfold clockSize at *
    omega
  have rounds : clockSize - 1 - k < clockSize := by omega
  obtain ⟨slot, closed, reading⟩ := readFrom_closeGap Halt.endless bound tail rounds
    clock.ring.slot
  rw [position] at closed
  have erased : ((clock.ring.entries clockSize).eraseIdx k).length = clockSize - 1 := by
    simp [List.length_eraseIdx, Dial.entries, bound]
  -- clearing the tail node overwrites the second copy of the last entry
  have cleared : readFrom (Function.update slot clock.ring.hand.toNat
      { slot clock.ring.hand.toNat with vpn := -1 }) clockSize (clock.ring.next clockSize) =
      (clock.ring.entries clockSize).eraseIdx k ++
        [{ slot clock.ring.hand.toNat with vpn := -1 }] := by
    have write := readFrom_update slot clockSize (clock.ring.next clockSize) (clockSize - 1)
      (by decide) { slot clock.ring.hand.toNat with vpn := -1 }
    rw [tail, reading] at write
    rw [write, List.set_append_right _ _ (by rw [← erased]; exact Nat.le_refl _)]
    simp only [Dial.entries] at erased ⊢
    simp [erased]
  let final : Clock := { clock with ring := ⟨Function.update slot clock.ring.hand.toNat
    { slot clock.ring.hand.toNat with vpn := -1 },
    if clock.ring.hand = 0 then clockSize - 1 else clock.ring.hand - 1⟩ }
  refine ⟨final, { slot clock.ring.hand.toNat with vpn := -1 }, ?_, rfl, rfl, ?_, ?_⟩
  · simp only [clkRemove, found, Outcome.ok_bind, closed]
    rfl
  · apply readFrom_retreat
    rw [← readFrom_mod, show (final.ring.next clockSize + 1) % clockSize =
      clock.ring.next clockSize from ?_]
    · exact cleared
    · rw [after]
      simp only [final, Dial.next, clockSize] at *
      split <;> omega
  · simp only [final, clockSize] at *
    split <;> omega

/-- A removal keeps the ring ordered and drops exactly the page from the queue. -/
theorem Clock.Ordered.remove {clock : Clock} {queue : List Node} (ordered : clock.Ordered gap queue)
    {vpn : Int} (page : 0 ≤ vpn) :
    ∃ next gap' queue', clkRemove clock vpn = .ok next ∧ next.Ordered gap' queue' ∧
      Fifo.Step ⟨queue, clock.store⟩ (.remove vpn) ⟨queue', next.store⟩ := by
  obtain ⟨found, searched, hit, missed⟩ := findMatch_spec clock.ring vpn ordered.hand clockSize 0
  cases found with
  | none =>
    refine ⟨clock, gap, queue, by simp [clkRemove, searched], ordered, ?_⟩
    have absent : vpn ∉ queue.map Node.vpn := by
      intro member
      obtain ⟨node, inside, same⟩ := List.mem_map.mp member
      have entry : node ∈ clock.ring.entries clockSize := by simp [ordered.shape, inside]
      obtain ⟨k, bound, rfl⟩ := List.mem_iff_getElem.mp entry
      simp only [Dial.entries, length_readFrom, getElem_readFrom] at bound same
      obtain ⟨j, small, reached⟩ := exists_position clock.ring.hand.toNat
        (Nat.mod_lt (clock.ring.next clockSize + k) (show 0 < clockSize by decide))
      exact missed rfl j (by omega) (by omega) (reached ▸ same)
    have dropped : Fifo.Step ⟨queue, clock.store⟩ (.remove vpn)
        ⟨queue.filter fun node => node.vpn != vpn, clock.store⟩ := .remove
    rwa [filter_absent absent] at dropped
  | some idx =>
    obtain ⟨inside, same⟩ := hit idx rfl
    obtain ⟨k, bound, position⟩ := exists_position (clock.ring.next clockSize) inside
    obtain ⟨next, freed, finished, empty, stored, reading, bounds⟩ :=
      clkRemove_found ordered.hand searched bound position
    have kBound : k < (gap ++ queue).length := by
      rw [← ordered.shape]
      simpa [Dial.entries] using bound
    have entry : ((gap ++ queue)[k]).vpn = vpn := by
      simp only [← ordered.shape]
      simpa [Dial.entries, position] using same
    have past : gap.length ≤ k := by
      by_contra early
      rw [List.getElem_append_left (by omega)] at entry
      have blank := ordered.vacant _ (List.getElem_mem (show k < gap.length by omega))
      omega
    have queueBound : k - gap.length < queue.length := by
      rw [List.length_append] at kBound
      omega
    rw [List.getElem_append_right past] at entry
    have erased := eraseIdx_eq_filter queueBound ordered.distinct
    rw [entry] at erased
    rw [ordered.shape, List.eraseIdx_append_of_length_le past, erased] at reading
    refine ⟨next, freed :: gap, queue.filter fun node => node.vpn != vpn, finished,
      ⟨by simpa using reading, ?_, ?_, ?_, bounds⟩, ?_⟩
    · intro node member
      rcases List.mem_cons.mp member with rfl | older
      · exact empty
      · exact ordered.vacant node older
    · exact fun node member => ordered.resident node (List.mem_of_mem_filter member)
    · exact ordered.distinct.sublist (List.Sublist.map _ List.filter_sublist)
    · rw [stored]
      exact .remove

/-! ## Runs -/

/-- Every admitted action on an ordered ring completes, keeps it ordered and is a step of the
second-chance queue. -/
theorem Clock.Ordered.step {clock : Clock} {queue : List Node} (ordered : clock.Ordered gap queue)
    (admitted : action.Admitted clock) :
    ∃ next gap' queue', step clock action = .ok next ∧ next.Ordered gap' queue' ∧
      Fifo.Step clock.fifo action next.fifo := by
  have abstract : clock.fifo = ⟨queue, clock.store⟩ := by rw [Clock.fifo, ordered.pages]
  rw [abstract]
  cases action with
  | insert vpn pte =>
    obtain ⟨page, fresh⟩ := admitted
    rw [ordered.pages] at fresh
    obtain ⟨next, gap', queue', finished, kept, stepped⟩ := Clock.Ordered.insert ordered.shape
      ordered.vacant ordered.resident ordered.distinct pte page fresh
    refine ⟨next, gap', queue', finished, kept, ?_⟩
    rwa [Clock.fifo, kept.pages]
  | remove vpn =>
    obtain ⟨next, gap', queue', finished, kept, stepped⟩ := ordered.remove admitted
    refine ⟨next, gap', queue', finished, kept, ?_⟩
    rwa [Clock.fifo, kept.pages]
  | touch chosen =>
    have kept : Clock.Ordered { clock with store := touchAll clock.store chosen } gap queue :=
      ⟨ordered.shape, ordered.vacant, ordered.resident, ordered.distinct, ordered.hand⟩
    refine ⟨_, gap, queue, rfl, kept, ?_⟩
    rw [Clock.fifo, kept.pages]
    exact .touch

theorem Clock.Ordered.run {clock : Clock} {queue : List Node} (ordered : clock.Ordered gap queue)
    {actions : List Action} (admitted : AdmittedFrom clock actions) :
    ∃ final gap' queue', Outcome.run ClockReference.step clock actions = .ok final ∧
      final.Ordered gap' queue' ∧ Fifo.Run clock.fifo actions final.fifo := by
  induction actions generalizing clock gap queue with
  | nil => exact ⟨clock, gap, queue, rfl, ordered, .nil _⟩
  | cons action rest ih =>
    obtain ⟨next, gap', queue', stepped, kept, first⟩ := ordered.step admitted.1
    obtain ⟨final, gap'', queue'', finished, last, later⟩ := ih kept (admitted.later stepped)
    refine ⟨final, gap'', queue'', ?_, last, .cons first later⟩
    rw [Outcome.run, stepped]
    exact finished

theorem clkClear_entries (clock : Clock) :
    ∀ node ∈ (clkClear clock).ring.entries clockSize, node.vpn = -1 := by
  intro node member
  simp only [Dial.entries, readFrom, clkClear, List.mem_map] at member
  obtain ⟨k, _, rfl⟩ := member
  rfl

/-- The user-level clock queue refines second-chance FIFO: from a cleared queue, every run that
begins with an insertion and whose calls are admitted returns from each call without leaving the
ring, and its non-empty nodes, read from after the hand, go through the steps of the
second-chance queue and never exceed the ring. -/
theorem clkRun_refines_fifo (clock : Clock) (vpn : Int) (pte : Nat) (rest : List Action)
    (admitted : AdmittedFrom (clkClear clock) (.insert vpn pte :: rest)) :
    ∃ final, Outcome.run step (clkClear clock) (.insert vpn pte :: rest) = .ok final ∧
      Fifo.Run ⟨[], clock.store⟩ (.insert vpn pte :: rest) final.fifo ∧
      final.pages.length ≤ clockSize := by
  have blank := clkClear_entries clock
  have page : 0 ≤ vpn := admitted.1.1
  have shape : (clkClear clock).ring.entries clockSize =
      (clkClear clock).ring.entries clockSize ++ [] := by simp
  obtain ⟨next, gap, queue, finished, ordered, first⟩ := Clock.Ordered.insert shape blank
    (by simp) (by simp) pte page (by simp)
  obtain ⟨final, gap', queue', completed, kept, steps⟩ := ordered.run (admitted.later finished)
  refine ⟨final, ?_, ?_, ?_⟩
  · rw [Outcome.run, step, finished]
    exact completed
  · refine .cons first ?_
    rwa [← ordered.pages]
  · rw [kept.pages]
    exact kept.length_le

/-- A clock whose entries are all encrypted, as `main` of `clock.c` sets them up. -/
def encryptedClock : Clock := ⟨⟨fun _ => ⟨-1, 0⟩, 0⟩, ⟨fun _ => pteE, []⟩⟩

/-- Nine pages, of which the first two are referenced, then a removal: the run wraps the ring,
passes over referenced pages and evicts. -/
def wrappingRun : List Action :=
  [.insert 0 0, .insert 1 1, .insert 2 2, .insert 3 3, .insert 4 4, .insert 5 5, .insert 6 6,
    .insert 7 7, .touch (fun pte => pte < 2), .insert 8 8, .remove 5, .insert 2 2]

/-- The refinement applies to a run that wraps, evicts and removes. -/
theorem wrappingRun_refines_fifo :
    ∃ final, Outcome.run step (clkClear encryptedClock) wrappingRun = .ok final ∧
      Fifo.Run ⟨[], encryptedClock.store⟩ wrappingRun final.fifo ∧
      final.pages.length ≤ clockSize :=
  clkRun_refines_fifo encryptedClock 0 0 _ (by decide +kernel)

end MemoryEncryption.ClockReference
