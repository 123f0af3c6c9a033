import Mathlib.Data.Finset.Sort
import Mathlib.Data.Set.Finite.Basic

/-!
# Numbers on a circle

Nodes that are linked in ascending order, the last one to the first one, make a cycle. A
link passes no node: no node is inside the arc from a node to the next one. With this as
the definition a node is put in or taken out by changing the links at one place, and a
walk that has not passed a given point comes closer to it. Nothing in this module names a
particular program.
-/

namespace MemoryEncryption

open Function

/-- The point is inside the arc from one point upwards to another one, past the top if the other one
is not above. -/
def Inside (a c b : Nat) : Prop := (a < c ∧ c < b) ∨ (b ≤ a ∧ (a < c ∨ c < b))

instance (a c b : Nat) : Decidable (Inside a c b) := inferInstanceAs (Decidable (_ ∨ _))

/-- The links lead from each node to the next one. -/
def Follows (nodes : Set Nat) (next : Nat → Nat) : Prop :=
  ∀ a ∈ nodes, next a ∈ nodes ∧ ∀ c ∈ nodes, ¬ Inside a c (next a)

variable {goal c a b : Nat}

namespace Follows

variable {nodes : Set Nat} {next next' : Nat → Nat} {p new : Nat}

theorem congr (follows : Follows nodes next) (same : ∀ a ∈ nodes, next' a = next a) :
    Follows nodes next' := by
  intro a member
  rw [same a member]
  exact follows a member

theorem insert (follows : Follows nodes next) (member : p ∈ nodes) (fresh : new ∉ nodes)
    (between : Inside p new (next p)) :
    Follows (Insert.insert new nodes) (update (update next new (next p)) p new) := by
  have other : new ≠ p := by
    rintro rfl
    exact fresh member
  obtain ⟨nextMember, free⟩ := follows p member
  intro a here
  by_cases atP : a = p
  · subst atP
    rw [update_self]
    refine ⟨Set.mem_insert _ _, ?_⟩
    rintro c (rfl | there)
    · unfold Inside
      omega
    · have outside := free c there
      have apart : c ≠ new := by
        rintro rfl
        exact fresh there
      unfold Inside at *
      omega
  · rw [update_of_ne atP]
    rcases here with rfl | here
    · rw [update_self]
      refine ⟨Set.mem_insert_of_mem _ nextMember, ?_⟩
      rintro c (rfl | there)
      · unfold Inside at *
        omega
      · have outside := free c there
        have pOut := free p member
        unfold Inside at *
        omega
    · have distinct : a ≠ new := by
        rintro rfl
        exact fresh here
      rw [update_of_ne distinct]
      obtain ⟨aNext, aFree⟩ := follows a here
      refine ⟨Set.mem_insert_of_mem _ aNext, ?_⟩
      rintro c (rfl | there)
      · have pOut := aFree p member
        have aOut := free a here
        have nOut := free _ aNext
        unfold Inside at *
        omega
      · exact aFree c there

theorem remove (follows : Follows nodes next) (member : p ∈ nodes) (other : next p ≠ p) :
    Follows (nodes \ {next p}) (update next p (next (next p))) := by
  obtain ⟨nextMember, free⟩ := follows p member
  obtain ⟨lastMember, nextFree⟩ := follows (next p) nextMember
  have turns : next (next p) ≠ next p := by
    intro same
    have out := nextFree p member
    rw [same] at out
    unfold Inside at out
    omega
  rintro a ⟨here, notNext⟩
  have distinct : a ≠ next p := notNext
  by_cases atP : a = p
  · subst atP
    rw [update_self]
    refine ⟨⟨lastMember, turns⟩, ?_⟩
    rintro c ⟨there, apart⟩
    have first := free c there
    have second := nextFree c there
    have cNext : c ≠ next a := apart
    have pOut := nextFree a member
    unfold Inside at *
    omega
  · rw [update_of_ne atP]
    obtain ⟨aNext, aFree⟩ := follows a here
    refine ⟨⟨aNext, ?_⟩, fun c there => aFree c there.1⟩
    intro same
    have pOut := aFree p member
    have aOut := free a here
    rw [Set.mem_singleton_iff] at same
    rw [same] at pOut
    unfold Inside at *
    omega

/-- How far a point is from the one before the goal, going up. -/
def distance (bound goal c : Nat) : Nat :=
  if c < goal then goal - 1 - c else goal + bound - 1 - c

theorem distance_lt_bound {bound : Nat} (goalLess : goal < bound) :
    distance bound goal c < bound := by
  unfold distance
  split <;> omega

/-- No point is as far from the goal as the goal itself is, the way round. -/
theorem distance_lt_self {bound : Nat} (goalLess : goal < bound) (cLess : c < bound)
    (other : c ≠ goal) : distance bound goal c < distance bound goal goal := by
  unfold distance
  split <;> split <;> omega

/-- A link that neither passes the goal nor reaches it leads closer to it. -/
theorem distance_lt {bound : Nat} (aLess : a < bound) (bLess : b < bound) (past : ¬ Inside a goal b)
    (short : b ≠ goal) : distance bound goal b < distance bound goal a := by
  unfold distance Inside at *
  split <;> split <;> omega

/-- A point that is ahead stays ahead after a link that neither passes nor reaches it. -/
theorem distance_ahead {bound : Nat} (bLess : b < bound) (cLess : c < bound)
    (ahead : distance bound goal c < distance bound goal a) (outside : ¬ Inside a c b)
    (other : c ≠ b) : distance bound goal c < distance bound goal b := by
  unfold distance Inside at *
  split at ahead <;> split at ahead <;> split <;> split <;> omega

theorem not_ahead {bound : Nat} (cLess : c < bound) (outside : ¬ Inside a c goal) (other : c ≠ goal) :
    ¬ distance bound goal c < distance bound goal a := by
  unfold distance Inside at *
  split <;> split <;> omega

end Follows

/-- The links of a list from each element to the next one, and from the last one to the first one. -/
structure Cycle (next : Nat → Nat) (order : List Nat) : Prop where
  /-- The elements ascend. -/
  ascending : order.Pairwise (· < ·)
  /-- Each element is linked to the next one. -/
  linked : order.IsChain fun a b => next a = b
  /-- The last element is linked to the first one. -/
  wraps : ∀ last ∈ order.getLast?, next last ∈ order.head?

/-- The link of a node is to the node above it that no other one is below. -/
theorem Follows.next_eq {nodes : Set Nat} {next : Nat → Nat} (follows : Follows nodes next)
    (aMember : a ∈ nodes) (bMember : b ∈ nodes) (nearest : ∀ c ∈ nodes, ¬ Inside a c b) :
    next a = b := by
  obtain ⟨member, free⟩ := follows a aMember
  have first := nearest _ member
  have second := free b bMember
  have aOut := free a aMember
  have aIn := nearest a aMember
  unfold Inside at *
  omega

/-- Links from each node to the next one make a cycle in ascending order. -/
theorem Follows.cycle {nodes : Set Nat} {next : Nat → Nat} (follows : Follows nodes next)
    (finite : nodes.Finite) : ∃ order, Cycle next order ∧ ∀ a, a ∈ order ↔ a ∈ nodes := by
  have mem : ∀ a, a ∈ finite.toFinset.sort (· ≤ ·) ↔ a ∈ nodes := by
    intro a
    rw [Finset.mem_sort, Set.Finite.mem_toFinset]
  have sorted : (finite.toFinset.sort (· ≤ ·)).Pairwise (· < ·) := Finset.sortedLT_sort _ |>.pairwise
  generalize finite.toFinset.sort (· ≤ ·) = order at mem sorted
  have less := List.pairwise_iff_getElem.mp sorted
  -- The order of two elements is that of their places.
  have places : ∀ i j (hi : i < order.length) (hj : j < order.length),
      order[i] < order[j] → i < j := by
    intro i j hi hj ordered
    by_contra late
    rcases Nat.lt_or_eq_of_le (Nat.le_of_not_lt late) with before | same
    · have back := less j i hj hi before
      omega
    · subst same
      omega
  refine ⟨order, ⟨sorted, ?_, ?_⟩, mem⟩
  · rw [List.isChain_iff_getElem]
    intro i inside
    apply follows.next_eq ((mem _).mp (List.getElem_mem _)) ((mem _).mp (List.getElem_mem _))
    intro c there between
    obtain ⟨j, jLess, rfl⟩ := List.getElem_of_mem ((mem c).mpr there)
    have up := less i (i + 1) (by omega) inside (by omega)
    have above := places i j (by omega) jLess
    have below := places j (i + 1) jLess inside
    unfold Inside at between
    omega
  · intro last atEnd
    have full : 0 < order.length := List.length_pos_of_mem (List.mem_of_getLast? atEnd)
    have lastEq : last = order[order.length - 1] := by
      rw [List.getLast?_eq_getElem?, List.getElem?_eq_getElem (by omega)] at atEnd
      exact (Option.mem_some_iff.mp atEnd).symm
    have first : order[0] ∈ order.head? := by
      rw [List.head?_eq_getElem?, List.getElem?_eq_getElem full]
      exact rfl
    rw [follows.next_eq (b := order[0]) ((mem _).mp (lastEq ▸ List.getElem_mem _))
      ((mem _).mp (List.getElem_mem _))]
    · exact first
    · intro c there between
      obtain ⟨j, jLess, rfl⟩ := List.getElem_of_mem ((mem c).mpr there)
      have above := places (order.length - 1) j (by omega) jLess
      have below := places j 0 jLess full
      have wide := places 0 (order.length - 1) full (by omega)
      rw [lastEq] at between
      by_cases single : order.length = 1
      · have zero : j = 0 := by omega
        subst zero
        simp only [single] at between
        unfold Inside at between
        omega
      · have up := less 0 (order.length - 1) full (by omega) (by omega)
        unfold Inside at between
        omega

end MemoryEncryption
