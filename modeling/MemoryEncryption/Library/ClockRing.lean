import Mathlib.Data.List.Basic
import Mathlib.Data.Nat.ModEq
import MemoryEncryption.Library.Outcome

/-!
# Second-chance replacement over a ring of slots

A ring is an array of slots with a hand. Read cyclically from the slot after the
hand to the hand itself it is a list, and each ring operation is a list
operation there: advancing the hand is a rotation by one, closing a gap up to
the hand erases one position. `sweep` is the replacement loop over such a ring,
for any type of slots, any store that holds the reference bits and any way of
evicting; `Sweeps` is its meaning on lists.
-/

namespace MemoryEncryption.ClockRing

open Function Outcome

variable {ν τ ε : Type}

/-- All slots in cyclic order, beginning with the one at `start`. -/
def readFrom (slot : Nat → ν) (size start : Nat) : List ν :=
  (List.range size).map fun k => slot ((start + k) % size)

@[simp] theorem length_readFrom (slot : Nat → ν) (size start : Nat) :
    (readFrom slot size start).length = size := by
  simp [readFrom]

@[simp] theorem getElem_readFrom (slot : Nat → ν) (size start k : Nat)
    (inside : k < (readFrom slot size start).length) :
    (readFrom slot size start)[k] = slot ((start + k) % size) := by
  simp [readFrom]

theorem readFrom_mod (slot : Nat → ν) (size start : Nat) :
    readFrom slot size (start % size) = readFrom slot size start := by
  simp [readFrom]

/-- Two positions of one reading are the same slot only if they are the same position. -/
theorem position_injective {size start left right : Nat} (leftBound : left < size)
    (rightBound : right < size) (same : (start + left) % size = (start + right) % size) :
    left = right := by
  have offsets := Nat.ModEq.add_left_cancel' start same
  rwa [Nat.ModEq, Nat.mod_eq_of_lt leftBound, Nat.mod_eq_of_lt rightBound] at offsets

/-- Filling the first slot of a reading and moving one slot on drops the first entry and
appends the new one. -/
theorem readFrom_advance (slot : Nat → ν) (size start : Nat) (positive : 0 < size) :
    ∃ rest, readFrom slot size start = slot (start % size) :: rest ∧
      ∀ filled, readFrom (update slot (start % size) filled) size (start + 1) =
        rest ++ [filled] := by
  obtain ⟨last, rfl⟩ : ∃ last, size = last + 1 := ⟨size - 1, by omega⟩
  refine ⟨(List.range last).map fun k => slot ((start + 1 + k) % (last + 1)), ?_, ?_⟩
  · simp only [readFrom, List.range_succ_eq_map, List.map_cons, Nat.add_zero, List.map_map]
    congr 1
    apply List.map_congr_left
    intro k _
    simp only [Function.comp]
    congr 2
    omega
  · intro filled
    simp only [readFrom, List.range_succ, List.map_append, List.map_cons, List.map_nil]
    have wrapped : (start + 1 + last) % (last + 1) = start % (last + 1) := by
      rw [show start + 1 + last = start + (last + 1) by omega, Nat.add_mod_right]
    congr 1
    · apply List.map_congr_left
      intro k small
      have bound : k < last := List.mem_range.mp small
      apply update_of_ne
      intro same
      -- two offsets below the ring size with one residue would coincide
      have residues : (start + (k + 1)) % (last + 1) = (start + 0) % (last + 1) := by
        simpa [Nat.add_assoc, Nat.add_comm 1 k] using same
      have offsets := position_injective (by omega) (by omega) residues
      omega
    · rw [wrapped, update_self]

/-- Writing the slot at a position of a reading writes that entry and no other. -/
theorem readFrom_update (slot : Nat → ν) (size start k : Nat) (bound : k < size) (filled : ν) :
    readFrom (update slot ((start + k) % size) filled) size start =
      (readFrom slot size start).set k filled := by
  apply List.ext_getElem (by simp)
  intro j jBound _
  simp only [length_readFrom] at jBound
  rw [List.getElem_set, getElem_readFrom, getElem_readFrom]
  by_cases same : k = j
  · subst same
    rw [if_pos rfl, update_self]
  · rw [if_neg same]
    apply update_of_ne
    intro residues
    exact same (position_injective bound jBound residues.symm)

/-- Reading from one slot earlier moves the last entry to the front. -/
theorem readFrom_retreat (slot : Nat → ν) (size start : Nat) (front : List ν) (tail : ν)
    (shape : readFrom slot size (start + 1) = front ++ [tail]) :
    readFrom slot size start = tail :: front := by
  have positive : 0 < size := by
    have lengths := congrArg List.length shape
    simp only [length_readFrom, List.length_append, List.length_singleton] at lengths
    omega
  obtain ⟨rest, before, after⟩ := readFrom_advance slot size start positive
  have moved := after (slot (start % size))
  rw [update_eq_self, shape] at moved
  obtain ⟨rfl, same⟩ := List.append_inj' moved rfl
  obtain rfl : tail = slot (start % size) := by simpa using same
  exact before

/-- Copying the next entry over a position and erasing the next position erases the first. -/
theorem eraseIdx_set_next (entries : List ν) (k : Nat) (bound : k + 1 < entries.length) :
    (entries.set k entries[k + 1]).eraseIdx (k + 1) = entries.eraseIdx k := by
  apply List.ext_getElem
  · simp [List.length_eraseIdx, bound, show k < entries.length by omega]
  · intro j left right
    simp only [List.getElem_eraseIdx, List.getElem_set]
    split <;> split <;> grind

theorem exists_position (start : Nat) {size slot : Nat} (bound : slot < size) :
    ∃ k < size, (start + k) % size = slot := by
  have positive : 0 < size := by omega
  refine ⟨(slot + (size - start % size)) % size, Nat.mod_lt _ positive, ?_⟩
  have residue := Nat.mod_lt start positive
  rw [Nat.add_mod_mod, ← Nat.mod_add_mod,
    show start % size + (slot + (size - start % size)) = slot + size by omega,
    Nat.add_mod_right, Nat.mod_eq_of_lt bound]

/-- Copy each slot's successor into it, from `index` up to but not into `tail`. -/
def closeGap (unfinished : ε) (size tail : Nat) : Nat → (Nat → ν) → Nat → Except ε (Nat → ν)
  | 0, _, _ => .error unfinished
  | fuel + 1, slot, index =>
    if index = tail then .ok slot
    else closeGap unfinished size tail fuel
      (Function.update slot index (slot ((index + 1) % size))) ((index + 1) % size)

variable {fuel : Nat}

/-- Closing a gap erases its position from the reading that ends at the tail; the tail slot
keeps a second copy of the last entry. -/
theorem readFrom_closeGap (unfinished : ε) {size start tail k : Nat} (bound : k < size)
    (ending : (start + (size - 1)) % size = tail) (enough : size - 1 - k < fuel) (slot : Nat → ν) :
    ∃ closed, closeGap unfinished size tail fuel slot ((start + k) % size) = .ok closed ∧
      readFrom closed size start = (readFrom slot size start).eraseIdx k ++ [slot tail] := by
  induction fuel generalizing k slot with
  | zero => omega
  | succ fuel ih =>
    rw [closeGap]
    by_cases last : k = size - 1
    · subst last
      rw [if_pos ending]
      refine ⟨slot, rfl, ?_⟩
      have whole := (readFrom slot size start).dropLast_append_getLast
        (List.ne_nil_of_length_pos (by simp; omega))
      rw [List.getLast_eq_getElem, List.dropLast_eq_take] at whole
      simp only [length_readFrom, getElem_readFrom, ending] at whole
      rw [List.eraseIdx_eq_take_drop_succ, List.drop_of_length_le (by simp; omega),
        List.append_nil]
      exact whole.symm
    · have distinct : (start + k) % size ≠ tail := by
        rw [← ending]
        intro same
        exact last (position_injective bound (by omega) same)
      rw [if_neg distinct]
      have successor : ((start + k) % size + 1) % size = (start + (k + 1)) % size := by
        rw [Nat.mod_add_mod, Nat.add_assoc]
      rw [successor]
      obtain ⟨closed, finished, reading⟩ := ih (show k + 1 < size by omega) (by omega)
        (update slot ((start + k) % size) (slot ((start + (k + 1)) % size)))
      refine ⟨closed, finished, ?_⟩
      rw [reading, readFrom_update _ _ _ _ bound, update_of_ne distinct.symm]
      have inside : k + 1 < (readFrom slot size start).length := by simp; omega
      have next : slot ((start + (k + 1)) % size) = (readFrom slot size start)[k + 1] := by simp
      rw [next, eraseIdx_set_next _ _ inside]

/-- Closing a gap that does not cross the end of the array moves the slots between the gap and
the tail down by one. -/
theorem closeGap_straight (unfinished : ε) {size tail index : Nat} (before : index ≤ tail)
    (inside : tail < size) (enough : tail - index < fuel) (slot : Nat → ν) :
    closeGap unfinished size tail fuel slot index =
      .ok fun j => if index ≤ j ∧ j < tail then slot (j + 1) else slot j := by
  induction fuel generalizing index slot with
  | zero => omega
  | succ fuel ih =>
    rw [closeGap]
    by_cases last : index = tail
    · rw [if_pos last]
      congr 1
      funext j
      rw [if_neg (by omega)]
    · rw [if_neg last, Nat.mod_eq_of_lt (by omega), ih (by omega) (by omega)]
      congr 1
      funext j
      simp only [update_apply]
      split_ifs <;> first | rfl | omega | (congr 1; omega)

/-! ## The replacement loop -/

/-- What the loop needs of its slots and of the store that holds their reference bits. -/
structure Policy (ν τ ε : Type) where
  /-- The slot holds nothing. -/
  empty : ν → Bool
  /-- The slot's page has been referenced. -/
  referenced : τ → ν → Except ε Bool
  /-- Clear the reference bit of the slot's page. -/
  clear : τ → ν → Except ε τ
  /-- Dispose of the page of a slot about to be reused. -/
  evict : τ → ν → Except ε τ
  /-- The loop was stopped before it found a slot. -/
  unfinished : ε

/-- An array of slots with its hand; the hand is `-1` until the first insertion. -/
structure Dial (ν : Type) where
  /-- The slots; only those below the ring size are used. -/
  slot : Nat → ν
  /-- The slot filled last. -/
  hand : Int

/-- The slot after the hand. -/
def Dial.next (ring : Dial ν) (size : Nat) : Nat := ((ring.hand + 1) % size).toNat

/-- The slots in cyclic order from the one after the hand to the hand. -/
def Dial.entries (ring : Dial ν) (size : Nat) : List ν :=
  readFrom ring.slot size (ring.next size)

/-- Advance the hand to a slot that is empty or not referenced, evicting its page, and clear
the reference bits on the way. -/
def sweep (policy : Policy ν τ ε) (size : Nat) (fill : ν → ν) :
    Nat → Dial ν → τ → Except ε (Dial ν × τ)
  | 0, _, _ => .error policy.unfinished
  | fuel + 1, ring, store =>
    let hand := ring.next size
    let node := ring.slot hand
    if policy.empty node then
      .ok (⟨Function.update ring.slot hand (fill node), hand⟩, store)
    else do
      let referenced ← policy.referenced store node
      if !referenced then
        let store ← policy.evict store node
        .ok (⟨Function.update ring.slot hand (fill node), hand⟩, store)
      else
        let store ← policy.clear store node
        sweep policy size fill fuel ⟨ring.slot, hand⟩ store

/-- The replacement loop on the list of slots in cyclic order. -/
inductive Sweeps (policy : Policy ν τ ε) (fill : ν → ν) : List ν → τ → List ν → τ → Prop where
  /-- An empty first slot is filled and becomes the last. -/
  | place {node : ν} {rest : List ν} {store : τ} (vacant : policy.empty node = true) :
    Sweeps policy fill (node :: rest) store (rest ++ [fill node]) store
  /-- An unreferenced first page is evicted and its slot reused. -/
  | replace {node : ν} {rest : List ν} {store evicted : τ} (occupied : policy.empty node = false)
    (idle : policy.referenced store node = .ok false)
    (disposed : policy.evict store node = .ok evicted) :
    Sweeps policy fill (node :: rest) store (rest ++ [fill node]) evicted
  /-- A referenced first page loses its bit and moves to the end. -/
  | spare {node : ν} {rest final : List ν} {store cleared last : τ}
    (occupied : policy.empty node = false) (used : policy.referenced store node = .ok true)
    (reset : policy.clear store node = .ok cleared)
    (later : Sweeps policy fill (rest ++ [node]) cleared final last) :
    Sweeps policy fill (node :: rest) store final last

variable {policy : Policy ν τ ε} {size : Nat} {fill : ν → ν}

theorem Dial.next_lt (ring : Dial ν) (positive : 0 < size) : ring.next size < size := by
  have lower := Int.emod_nonneg (ring.hand + 1) (show (size : Int) ≠ 0 by omega)
  have upper := Int.emod_lt_of_pos (ring.hand + 1) (show (0 : Int) < size by omega)
  unfold Dial.next
  omega

/-- Placing the hand on a slot makes the next slot the following residue. -/
theorem next_of_hand (slot : Nat → ν) (hand : Nat) (size : Nat) :
    Dial.next ⟨slot, hand⟩ size = (hand + 1) % size := by
  have cast : ((hand : Int) + 1) % size = ((hand + 1) % size : Nat) := by push_cast; rfl
  rw [Dial.next, cast, Int.toNat_natCast]

/-- Filling the slot after the hand and moving the hand there. -/
theorem entries_fill (ring : Dial ν) (positive : 0 < size) :
    ∃ rest, ring.entries size = ring.slot (ring.next size) :: rest ∧
      ∀ filled, Dial.entries ⟨update ring.slot (ring.next size) filled,
        (ring.next size : Int)⟩ size = rest ++ [filled] := by
  obtain ⟨rest, before, after⟩ := readFrom_advance ring.slot size (ring.next size) positive
  have residue : ring.next size % size = ring.next size := Nat.mod_eq_of_lt (ring.next_lt positive)
  rw [residue] at before after
  refine ⟨rest, before, fun filled => ?_⟩
  rw [Dial.entries, next_of_hand, readFrom_mod]
  exact after filled

variable {final : Dial ν}

/-- Every completed loop is a completed sweep of the cyclic list. -/
theorem sweep_sweeps (positive : 0 < size) {ring : Dial ν} {store last : τ}
    (finished : sweep policy size fill fuel ring store = .ok (final, last)) :
    Sweeps policy fill (ring.entries size) store (final.entries size) last := by
  induction fuel generalizing ring store with
  | zero => simp [sweep] at finished
  | succ fuel ih =>
    obtain ⟨rest, before, after⟩ := entries_fill ring positive
    rw [before]
    rw [sweep] at finished
    by_cases vacant : policy.empty (ring.slot (ring.next size)) = true
    · simp only [vacant, ↓reduceIte, Except.ok.injEq, Prod.mk.injEq] at finished
      obtain ⟨rfl, rfl⟩ := finished
      rw [after]
      exact .place vacant
    · have occupied := Bool.not_eq_true _ ▸ vacant
      simp only [occupied, Bool.false_eq_true, ↓reduceIte] at finished
      obtain ⟨referenced, known, finished⟩ := bind_eq_ok.mp finished
      cases referenced with
      | false =>
        obtain ⟨evicted, disposed, finished⟩ := bind_eq_ok.mp finished
        simp only [Except.ok.injEq, Prod.mk.injEq] at finished
        obtain ⟨rfl, rfl⟩ := finished
        rw [after]
        exact .replace occupied known disposed
      | true =>
        obtain ⟨cleared, reset, finished⟩ := bind_eq_ok.mp finished
        refine .spare occupied known reset ?_
        have moved := after (ring.slot (ring.next size))
        rw [update_eq_self] at moved
        rw [← moved]
        exact ih finished

/-- A completed loop has filled one slot, and leaves the hand there. -/
theorem sweep_fills (positive : 0 < size) {ring : Dial ν} {store last : τ}
    (finished : sweep policy size fill fuel ring store = .ok (final, last)) :
    ∃ j < size, final = ⟨update ring.slot j (fill (ring.slot j)), j⟩ := by
  induction fuel generalizing ring store with
  | zero => simp [sweep] at finished
  | succ fuel ih =>
    have inside := ring.next_lt positive
    rw [sweep] at finished
    by_cases vacant : policy.empty (ring.slot (ring.next size)) = true
    · simp only [vacant, ↓reduceIte, Except.ok.injEq, Prod.mk.injEq] at finished
      exact ⟨_, inside, finished.1.symm⟩
    · simp only [vacant, Bool.false_eq_true, ↓reduceIte] at finished
      obtain ⟨referenced, known, finished⟩ := bind_eq_ok.mp finished
      cases referenced with
      | false =>
        obtain ⟨evicted, disposed, finished⟩ := bind_eq_ok.mp finished
        simp only [Except.ok.injEq, Prod.mk.injEq] at finished
        exact ⟨_, inside, finished.1.symm⟩
      | true =>
        obtain ⟨cleared, reset, finished⟩ := bind_eq_ok.mp finished
        obtain ⟨j, bound, shape⟩ := ih finished
        exact ⟨j, bound, shape⟩

/-- A completed loop leaves the hand on a slot of the ring. -/
theorem sweep_hand (positive : 0 < size) {ring : Dial ν} {store last : τ}
    (finished : sweep policy size fill fuel ring store = .ok (final, last)) :
    0 ≤ final.hand ∧ final.hand < size := by
  obtain ⟨j, bound, rfl⟩ := sweep_fills positive finished
  exact ⟨Int.natCast_nonneg j, Int.ofNat_lt.mpr bound⟩

theorem Dial.mem_entries {ring : Dial ν} {node : ν} :
    node ∈ ring.entries size ↔ ∃ i < size, ring.slot i = node := by
  simp only [Dial.entries, readFrom, List.mem_map, List.mem_range]
  constructor
  · rintro ⟨k, bound, rfl⟩
    exact ⟨_, Nat.mod_lt _ (by omega), rfl⟩
  · rintro ⟨i, bound, rfl⟩
    obtain ⟨k, inside, position⟩ := exists_position (ring.next size) bound
    exact ⟨k, inside, by rw [position]⟩

/-- A sweep reuses one slot. The others keep their nodes, and what clearing reference bits
preserves of the store holds when the slot is taken. -/
theorem Sweeps.reuses (inv : τ → Prop) (sound : ν → Prop)
    (clears : ∀ store node cleared, inv store → sound node → policy.empty node = false →
      policy.clear store node = .ok cleared → inv cleared)
    {entries final : List ν} {store last : τ} (swept : Sweeps policy fill entries store final last)
    (sounds : ∀ node ∈ entries, sound node) (start : inv store) :
    ∃ (node : ν) (rest : List ν) (reached : τ), (∀ n, n ∈ entries ↔ n = node ∨ n ∈ rest) ∧
      (∀ n, n ∈ final ↔ n = fill node ∨ n ∈ rest) ∧ inv reached ∧
      ((policy.empty node = true ∧ last = reached) ∨
        (policy.empty node = false ∧ policy.evict reached node = .ok last)) := by
  induction swept with
  | @place node rest store vacant =>
    exact ⟨node, rest, store, by simp, by simp [or_comm], start, .inl ⟨vacant, rfl⟩⟩
  | @replace node rest store evicted occupied _ disposed =>
    exact ⟨node, rest, store, by simp, by simp [or_comm], start, .inr ⟨occupied, disposed⟩⟩
  | @spare node rest final store cleared last occupied _ reset _ ih =>
    obtain ⟨reused, others, reached, before, after, kept, outcome⟩ := ih
      (fun n inside => sounds n (by simpa [or_comm] using inside))
      (clears store node cleared start (sounds node (by simp)) occupied reset)
    refine ⟨reused, others, reached, fun n => ?_, after, kept, outcome⟩
    rw [← before n]
    simp [or_comm]

/-- What makes the loop finish: reference bits of the pages in the ring can be read, a cleared
bit stays clear while others are cleared, and an unreferenced page can be evicted. -/
structure Policy.Responsive (policy : Policy ν τ ε) (inv : τ → Prop) (sound : ν → Prop) :
    Prop where
  /-- The bit of a page in the ring can be read. -/
  readable : ∀ store node, inv store → sound node → ∃ bit, policy.referenced store node = .ok bit
  /-- A set bit can be cleared, without setting another. -/
  clears : ∀ store node, inv store → sound node → policy.referenced store node = .ok true →
    ∃ cleared, policy.clear store node = .ok cleared ∧ inv cleared ∧
      policy.referenced cleared node = .ok false ∧
      ∀ other, policy.referenced store other = .ok false →
        policy.referenced cleared other = .ok false
  /-- An unreferenced page can be evicted. -/
  evicts : ∀ store node, inv store → sound node → policy.referenced store node = .ok false →
    ∃ evicted, policy.evict store node = .ok evicted

variable {inv : τ → Prop}

/-- The loop finishes once it may examine every slot that is not known to be unreferenced, and
one more. The slots already passed are the `spared` ones. -/
theorem sweep_finishes_from {sound : ν → Prop} (responsive : policy.Responsive inv sound)
    (positive : 0 < size) (pending spared : List ν) (enough : pending.length < fuel) {ring : Dial ν}
    {store : τ} (start : inv store) (shape : ring.entries size = pending ++ spared)
    (sounds : ∀ node ∈ ring.entries size, policy.empty node = false → sound node)
    (idle : ∀ node ∈ spared, policy.referenced store node = .ok false) :
    ∃ final last, sweep policy size fill fuel ring store = .ok (final, last) := by
  induction fuel generalizing ring store pending spared with
  | zero => omega
  | succ fuel ih =>
    obtain ⟨rest, before, after⟩ := entries_fill ring positive
    rw [sweep]
    by_cases vacant : policy.empty (ring.slot (ring.next size)) = true
    · simp only [vacant, ↓reduceIte]
      exact ⟨_, _, rfl⟩
    · have occupied := Bool.not_eq_true _ ▸ vacant
      have member : ring.slot (ring.next size) ∈ ring.entries size := by simp [before]
      have nodeSound := sounds _ member occupied
      obtain ⟨referenced, known⟩ := responsive.readable store _ start nodeSound
      simp only [occupied, Bool.false_eq_true, ↓reduceIte, known, ok_bind]
      cases referenced with
      | false =>
        obtain ⟨evicted, disposed⟩ := responsive.evicts store _ start nodeSound known
        simp only [Bool.not_false, ↓reduceIte, disposed, ok_bind]
        exact ⟨_, _, rfl⟩
      | true =>
        obtain ⟨cleared, reset, kept, now, others⟩ :=
          responsive.clears store _ start nodeSound known
        simp only [Bool.not_true, Bool.false_eq_true, ↓reduceIte, reset, ok_bind]
        -- the examined page cannot be a spared one, since its bit was set
        cases pending with
        | nil =>
          have unreferenced := idle (ring.slot (ring.next size)) (by
            rw [List.nil_append] at shape
            rw [← shape]
            exact member)
          rw [known] at unreferenced
          simp at unreferenced
        | cons first remaining =>
          rw [before, List.cons_append] at shape
          cases shape
          have moved := after (ring.slot (ring.next size))
          rw [update_eq_self] at moved
          refine ih remaining (spared ++ [ring.slot (ring.next size)])
            (by simp only [List.length_cons] at enough; omega) kept
            (by rw [moved, List.append_assoc]) ?_ ?_
          · intro node inside
            rw [moved] at inside
            apply sounds
            rw [before]
            simp only [List.mem_append, List.mem_cons, List.not_mem_nil, or_false] at inside ⊢
            tauto
          · intro node inside
            rcases List.mem_append.mp inside with earlier | latest
            · exact others node (idle node earlier)
            · obtain rfl := List.mem_singleton.mp latest
              exact now

theorem sweep_finishes {sound : ν → Prop} (responsive : policy.Responsive inv sound)
    (positive : 0 < size) {ring : Dial ν} {store : τ} (start : inv store)
    (sounds : ∀ node ∈ ring.entries size, policy.empty node = false → sound node) :
    ∃ final last, sweep policy size fill (size + 1) ring store = .ok (final, last) :=
  sweep_finishes_from responsive positive (ring.entries size) [] (by simp [Dial.entries]) start
    (by simp) sounds (by simp)

/-- The slot that the loop examines after `k` others. -/
def Dial.ahead (ring : Dial ν) (size k : Nat) : Nat := (ring.next size + k) % size

/-- Moving the hand one slot on moves every slot ahead one place closer. -/
theorem Dial.ahead_next (ring : Dial ν) (size k : Nat) :
    Dial.ahead ⟨ring.slot, (ring.next size : Int)⟩ size k = ring.ahead size (k + 1) := by
  rw [ahead, ahead, next_of_hand, Nat.mod_add_mod]
  congr 1
  omega

/-- The loop passes over slots that are in use and referenced, and takes the first other one.
`stores k` is the store after `k` bits have been cleared. -/
theorem sweep_takes (positive : 0 < size) {r : Nat} (enough : r < fuel) (stores : Nat → τ)
    {ring : Dial ν}
    (passed : ∀ k < r, policy.empty (ring.slot (ring.ahead size k)) = false ∧
      policy.referenced (stores k) (ring.slot (ring.ahead size k)) = .ok true ∧
      policy.clear (stores k) (ring.slot (ring.ahead size k)) = .ok (stores (k + 1)))
    (stops : policy.empty (ring.slot (ring.ahead size r)) = true ∨
      policy.referenced (stores r) (ring.slot (ring.ahead size r)) = .ok false) :
    sweep policy size fill fuel ring (stores 0) = (do
      let store ← if policy.empty (ring.slot (ring.ahead size r)) then .ok (stores r)
        else policy.evict (stores r) (ring.slot (ring.ahead size r))
      .ok (⟨update ring.slot (ring.ahead size r) (fill (ring.slot (ring.ahead size r))),
        ring.ahead size r⟩, store)) := by
  induction r generalizing fuel ring stores with
  | zero =>
    obtain ⟨fuel, rfl⟩ := Nat.exists_eq_succ_of_ne_zero (show fuel ≠ 0 by omega)
    have first : ring.ahead size 0 = ring.next size := Nat.mod_eq_of_lt (ring.next_lt positive)
    rw [first] at stops ⊢
    rw [sweep]
    by_cases vacant : policy.empty (ring.slot (ring.next size)) = true
    · simp only [vacant, ↓reduceIte, ok_bind]
    · have idle := stops.resolve_left vacant
      simp only [vacant, Bool.false_eq_true, ↓reduceIte, idle, ok_bind, Bool.not_false]
  | succ r ih =>
    obtain ⟨fuel, rfl⟩ := Nat.exists_eq_succ_of_ne_zero (show fuel ≠ 0 by omega)
    have first : ring.ahead size 0 = ring.next size := Nat.mod_eq_of_lt (ring.next_lt positive)
    obtain ⟨occupied, used, reset⟩ := passed 0 (by omega)
    rw [first] at occupied used reset
    have rest : sweep policy size fill fuel ⟨ring.slot, (ring.next size : Int)⟩ (stores 1) = _ :=
      ih (by omega) (fun k => stores (k + 1)) (fun k inside => by
        rw [ring.ahead_next]
        exact passed (k + 1) (by omega)) (by
        rw [ring.ahead_next]
        exact stops)
    rw [ring.ahead_next] at rest
    rw [sweep]
    simp only [occupied, Bool.false_eq_true, ↓reduceIte, used, ok_bind, Bool.not_true, reset]
    exact rest

/-! ## Two rings in step -/

section Related

variable {μ κ : Type} {other : Policy μ κ ε}

/-- Two rings with the same hand whose slots correspond one to one. -/
structure Dial.Matches (size : Nat) (similar : ν → μ → Prop) (left : Dial ν) (right : Dial μ) :
    Prop where
  /-- The hands agree. -/
  hand : left.hand = right.hand
  /-- The slots agree. -/
  slots : ∀ i < size, similar (left.slot i) (right.slot i)

/-- Two policies that take the same decisions on corresponding slots. The stores correspond
while the loop runs (`during`) and after an eviction (`after`). -/
structure Policy.InStep (policy : Policy ν τ ε) (other : Policy μ κ ε) (similar : ν → μ → Prop)
    (during after : τ → κ → Prop) : Prop where
  /-- Empty slots correspond. -/
  empty : ∀ {a b}, similar a b → policy.empty a = other.empty b
  /-- Reference bits of slots in use correspond. -/
  referenced : ∀ {s t a b}, during s t → similar a b → policy.empty a = false →
    policy.referenced s a = other.referenced t b
  /-- Clearing keeps the stores in correspondence. -/
  clear : ∀ {s t a b u}, during s t → similar a b → policy.empty a = false →
    policy.clear s a = .ok u → ∃ v, other.clear t b = .ok v ∧ during u v
  /-- Evicting does, too. -/
  evict : ∀ {s t a b u}, during s t → similar a b → policy.empty a = false →
    policy.evict s a = .ok u → ∃ v, other.evict t b = .ok v ∧ after u v
  /-- Nothing evicted counts as a final correspondence. -/
  weaken : ∀ {s t}, during s t → after s t

variable {similar : ν → μ → Prop}

/-- Filling corresponding slots of matching rings keeps them matching. -/
theorem Dial.Matches.filled {left : Dial ν} {right : Dial μ}
    (matching : left.Matches size similar right) {a : ν} {b : μ} (same : similar a b) (k : Nat) :
    Dial.Matches size similar ⟨update left.slot k a, (k : Int)⟩
      ⟨update right.slot k b, (k : Int)⟩ := by
  refine ⟨rfl, fun i bound => ?_⟩
  by_cases chosen : i = k
  · subst chosen
    simpa using same
  · simpa [update_of_ne chosen] using matching.slots i bound

/-- Loops over matching rings under policies in step end alike. -/
theorem sweep_matches {during after : τ → κ → Prop}
    (inStep : policy.InStep other similar during after) (positive : 0 < size) {otherFill : μ → μ}
    (fills : ∀ {a b}, similar a b → similar (fill a) (otherFill b)) {left : Dial ν} {right : Dial μ}
    {store last : τ} {store' : κ} (matching : left.Matches size similar right)
    (stores : during store store')
    (finished : sweep policy size fill fuel left store = .ok (final, last)) :
    ∃ final' last', sweep other size otherFill fuel right store' = .ok (final', last') ∧
      final.Matches size similar final' ∧ after last last' := by
  induction fuel generalizing left right store store' with
  | zero => simp [sweep] at finished
  | succ fuel ih =>
    have hands : right.next size = left.next size := by rw [Dial.next, Dial.next, matching.hand]
    have node := matching.slots _ (left.next_lt positive)
    rw [sweep] at finished
    rw [sweep, hands]
    by_cases vacant : policy.empty (left.slot (left.next size)) = true
    · simp only [vacant, ↓reduceIte, Except.ok.injEq, Prod.mk.injEq] at finished
      obtain ⟨rfl, rfl⟩ := finished
      simp only [← inStep.empty node, vacant, ↓reduceIte]
      exact ⟨_, _, rfl, matching.filled (fills node) _, inStep.weaken stores⟩
    · have occupied := Bool.not_eq_true _ ▸ vacant
      simp only [occupied, Bool.false_eq_true, ↓reduceIte] at finished
      obtain ⟨referenced, known, finished⟩ := bind_eq_ok.mp finished
      simp only [← inStep.empty node, occupied, Bool.false_eq_true, ↓reduceIte,
        ← inStep.referenced stores node occupied, known, ok_bind]
      cases referenced with
      | false =>
        obtain ⟨evicted, disposed, finished⟩ := bind_eq_ok.mp finished
        simp only [Except.ok.injEq, Prod.mk.injEq] at finished
        obtain ⟨rfl, rfl⟩ := finished
        obtain ⟨evicted', disposed', agreed⟩ := inStep.evict stores node occupied disposed
        simp only [Bool.not_false, ↓reduceIte, disposed', ok_bind]
        exact ⟨_, _, rfl, matching.filled (fills node) _, agreed⟩
      | true =>
        obtain ⟨cleared, reset, finished⟩ := bind_eq_ok.mp finished
        obtain ⟨cleared', reset', agreed⟩ := inStep.clear stores node occupied reset
        simp only [Bool.not_true, Bool.false_eq_true, ↓reduceIte, reset', ok_bind]
        have moved : Dial.Matches size similar ⟨left.slot, (left.next size : Int)⟩
            ⟨right.slot, (left.next size : Int)⟩ := ⟨rfl, matching.slots⟩
        exact ih moved agreed finished

end Related

end MemoryEncryption.ClockRing
