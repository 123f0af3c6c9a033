import Mathlib.Data.Set.Insert
import Mathlib.Order.Interval.Set.Defs

/-!
# Blocks that tile a space

Blocks, each given by where it starts and how long it is, tile a set of places when they
do not overlap and every place of the set is in one of them. A new block is put beside
the others, two blocks that touch are joined, and a block is split in two. Nothing in this
module names a particular program.
-/

namespace MemoryEncryption

open Function

/-- The blocks do not overlap and cover the space. -/
structure Tiles (blocks : Set Nat) (length : Nat → Nat) (space : Set Nat) : Prop where
  /-- No block is empty. -/
  positive : ∀ b ∈ blocks, 0 < length b
  /-- A block ends before the next one starts. -/
  apart : ∀ a ∈ blocks, ∀ b ∈ blocks, a < b → a + length a ≤ b
  /-- The places of the space are those of the blocks. -/
  cover : ∀ x, x ∈ space ↔ ∃ b ∈ blocks, b ≤ x ∧ x < b + length b

namespace Tiles

variable {blocks space : Set Nat} {length length' : Nat → Nat} {a b : Nat}

theorem congr (tiles : Tiles blocks length space) (same : ∀ b ∈ blocks, length' b = length b) :
    Tiles blocks length' space where
  positive := by
    intro b member
    rw [same b member]
    exact tiles.positive b member
  apart := by
    intro a aMember b bMember
    rw [same a aMember]
    exact tiles.apart a aMember b bMember
  cover := by
    intro x
    rw [tiles.cover]
    constructor
    · rintro ⟨b, member, inside⟩
      exact ⟨b, member, by rw [same b member]; exact inside⟩
    · rintro ⟨b, member, inside⟩
      exact ⟨b, member, by rw [← same b member]; exact inside⟩

theorem mem_space (tiles : Tiles blocks length space) (member : b ∈ blocks) {x : Nat}
    (lower : b ≤ x) (upper : x < b + length b) : x ∈ space :=
  (tiles.cover x).mpr ⟨b, member, lower, upper⟩

theorem insert {n : Nat} (tiles : Tiles blocks length space) (some : 0 < n)
    (fresh : ∀ x, a ≤ x → x < a + n → x ∉ space) :
    Tiles (Insert.insert a blocks) (update length a n) (space ∪ Set.Ico a (a + n)) := by
  have absent : a ∉ blocks := by
    intro member
    have positive := tiles.positive a member
    exact fresh a (le_refl a) (by omega) (tiles.mem_space member (le_refl a) (by omega))
  have kept : ∀ b ∈ blocks, update length a n b = length b := by
    intro b member
    apply update_of_ne
    rintro rfl
    exact absent member
  -- A block does not reach into the new one, nor the new one into a block.
  have beside : ∀ b ∈ blocks, b + length b ≤ a ∨ a + n ≤ b := by
    intro b member
    by_contra overlap
    have positive := tiles.positive b member
    exact fresh (max a b) (le_max_left a b) (by omega)
      (tiles.mem_space member (le_max_right a b) (by omega))
  constructor
  · rintro b (rfl | member)
    · rwa [update_self]
    · rw [kept b member]
      exact tiles.positive b member
  · rintro b (rfl | bMember) c (rfl | cMember) less
    · omega
    · rw [update_self]
      have clear := beside c cMember
      have positive := tiles.positive c cMember
      omega
    · rw [kept b bMember]
      have clear := beside b bMember
      omega
    · rw [kept b bMember]
      exact tiles.apart b bMember c cMember less
  · intro x
    rw [Set.mem_union, tiles.cover, Set.mem_Ico]
    constructor
    · rintro (⟨b, member, inside⟩ | inside)
      · exact ⟨b, Set.mem_insert_of_mem _ member, by rwa [kept b member]⟩
      · exact ⟨a, Set.mem_insert _ _, by rwa [update_self]⟩
    · rintro ⟨b, rfl | member, inside⟩
      · rw [update_self] at inside
        exact .inr inside
      · rw [kept b member] at inside
        exact .inl ⟨b, member, inside⟩

theorem join (tiles : Tiles blocks length space) (aMember : a ∈ blocks) (bMember : b ∈ blocks)
    (touch : a + length a = b) :
    Tiles (blocks \ {b}) (update length a (length a + length b)) space := by
  have aPositive := tiles.positive a aMember
  have bPositive := tiles.positive b bMember
  have kept : ∀ c, c ≠ a → update length a (length a + length b) c = length c :=
    fun c other => update_of_ne other _ _
  constructor
  · rintro c ⟨member, _⟩
    by_cases same : c = a
    · subst same
      rw [update_self]
      omega
    · rw [kept c same]
      exact tiles.positive c member
  · rintro c ⟨cMember, _⟩ d ⟨dMember, notB⟩ less
    have other : d ≠ b := notB
    by_cases same : c = a
    · subst same
      rw [update_self]
      have first := tiles.apart c cMember d dMember less
      have second := tiles.apart b bMember d dMember (by omega)
      omega
    · rw [kept c same]
      exact tiles.apart c cMember d dMember less
  · intro x
    rw [tiles.cover]
    constructor
    · rintro ⟨c, member, inside⟩
      by_cases atB : c = b
      · refine ⟨a, ⟨aMember, by rw [Set.mem_singleton_iff]; omega⟩, ?_⟩
        rw [update_self]
        subst atB
        omega
      · refine ⟨c, ⟨member, atB⟩, ?_⟩
        by_cases same : c = a
        · subst same
          rw [update_self]
          omega
        · rwa [kept c same]
    · rintro ⟨c, ⟨member, _⟩, inside⟩
      by_cases same : c = a
      · subst same
        rw [update_self] at inside
        by_cases early : x < b
        · exact ⟨c, member, by omega⟩
        · exact ⟨b, bMember, by omega⟩
      · rw [kept c same] at inside
        exact ⟨c, member, inside⟩

theorem split {k : Nat} (tiles : Tiles blocks length space) (member : a ∈ blocks) (some : 0 < k)
    (less : k < length a) :
    Tiles (Insert.insert (a + k) blocks)
      (update (update length a k) (a + k) (length a - k)) space := by
  have absent : ∀ b ∈ blocks, b ≠ a + k := by
    rintro b bMember rfl
    have past := tiles.apart a member _ bMember (by omega)
    omega
  have atA : update (update length a k) (a + k) (length a - k) a = k := by
    rw [update_of_ne (by omega), update_self]
  have kept : ∀ b ∈ blocks, b ≠ a →
      update (update length a k) (a + k) (length a - k) b = length b := by
    intro b bMember other
    rw [update_of_ne (absent b bMember), update_of_ne other]
  constructor
  · rintro b (rfl | bMember)
    · rw [update_self]
      omega
    · by_cases same : b = a
      · subst same
        rwa [atA]
      · rw [kept b bMember same]
        exact tiles.positive b bMember
  · rintro b (rfl | bMember) c (rfl | cMember) ordered
    · omega
    · rw [update_self]
      have past := tiles.apart a member c cMember (by omega)
      omega
    · by_cases same : b = a
      · subst same
        rw [atA]
      · rw [kept b bMember same]
        have before : b < a := by
          by_contra late
          have past := tiles.apart a member b bMember (by omega)
          omega
        have past := tiles.apart b bMember a member before
        omega
    · by_cases same : b = a
      · subst same
        rw [atA]
        have past := tiles.apart b bMember c cMember ordered
        omega
      · rw [kept b bMember same]
        exact tiles.apart b bMember c cMember ordered
  · intro x
    rw [tiles.cover]
    constructor
    · rintro ⟨b, bMember, inside⟩
      by_cases same : b = a
      · subst same
        by_cases early : x < b + k
        · exact ⟨b, Set.mem_insert_of_mem _ bMember, by rw [atA]; omega⟩
        · exact ⟨b + k, Set.mem_insert _ _, by rw [update_self]; omega⟩
      · exact ⟨b, Set.mem_insert_of_mem _ bMember, by rwa [kept b bMember same]⟩
    · rintro ⟨b, rfl | bMember, inside⟩
      · rw [update_self] at inside
        exact ⟨a, member, by omega⟩
      · by_cases same : b = a
        · subst same
          rw [atA] at inside
          exact ⟨b, bMember, by omega⟩
        · rw [kept b bMember same] at inside
          exact ⟨b, bMember, inside⟩

end Tiles

end MemoryEncryption
