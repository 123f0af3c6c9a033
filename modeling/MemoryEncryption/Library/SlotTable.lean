import MemoryEncryption.Library.Splice

/-!
# Tables of slots

A finite map can be kept as a sequence of slots, each of them empty or with a key and
a value: a new key goes into an empty slot or behind the last one, and a key is removed
by emptying its slot. This module states when such a table is a map and that the two
changes are the changes of the map. Nothing in it names a particular program.
-/

namespace MemoryEncryption

open Function

/-- A sequence of slots. -/
abbrev Slots (K V : Type) := List (Option (K × V))

namespace Slots

variable {K V : Type} {slots : Slots K V} {n : Nat} {key : K} {value : V}

/-- The slot has the key with the value. -/
def At (slots : Slots K V) (n : Nat) (key : K) (value : V) : Prop :=
  slots[n]? = some (some (key, value))

/-- The slot is empty, or the next one behind the last. -/
def Vacant (slots : Slots K V) (n : Nat) : Prop := slots[n]? = some none ∨ n = slots.length

/-- No two slots have the same key. -/
def Unique (slots : Slots K V) : Prop :=
  ∀ m n key v w, slots.At m key v → slots.At n key w → m = n

/-- The table has each key in at most one slot and is the map. -/
structure Is (slots : Slots K V) (map : K → Option V) : Prop where
  /-- No two slots have the same key. -/
  unique : slots.Unique
  /-- The keys of the map are in slots, with their values. -/
  binds : ∀ key value, map key = some value ↔ ∃ n, slots.At n key value

theorem At.lt (here : slots.At n key value) : n < slots.length :=
  (List.getElem?_eq_some_iff.mp here).1

/-- A slot that can be taken is not past the one behind the last. -/
theorem Vacant.le (vacant : slots.Vacant n) : n ≤ slots.length := by
  rcases vacant with empty | last
  · exact Nat.le_of_lt (List.getElem?_eq_some_iff.mp empty).1
  · exact Nat.le_of_eq last

theorem at_splice {slot : Option (K × V)} (inside : n ≤ slots.length) (m : Nat) :
    At (splice slots n [slot]) m key value ↔
      if m = n then slot = some (key, value) else slots.At m key value := by
  unfold At
  by_cases same : m = n
  · subst same
    rw [getElem?_splice_new inside (Nat.le_refl m) (by simp), if_pos rfl]
    simp
  · rw [getElem?_splice_old inside (by simp; omega), if_neg same]

theorem Is.at_map {map : K → Option V} (table : slots.Is map) (here : slots.At n key value) :
    map key = some value := (table.binds key value).mpr ⟨n, here⟩

theorem Is.not_at {map : K → Option V} (table : slots.Is map) (absent : map key = none) :
    ¬ slots.At n key value := by
  intro here
  rw [table.at_map here] at absent
  cases absent

theorem Vacant.not_at (vacant : slots.Vacant n) : ¬ slots.At n key value := by
  intro here
  rcases vacant with empty | last
  · rw [At, empty] at here
    cases here
  · have inside := here.lt
    omega

theorem is_nil : Is ([] : Slots K V) fun _ => none where
  unique := by
    intro m n key v w here
    cases here
  binds := by
    intro key value
    constructor
    · intro found
      cases found
    · rintro ⟨n, here⟩
      cases here

variable [DecidableEq K] {map : K → Option V}

/-- A key that is not in the map is added in a slot that can be taken. -/
theorem Is.insert (table : slots.Is map) (vacant : slots.Vacant n) (absent : map key = none)
    (value : V) :
    Is (splice slots n [some (key, value)]) (update map key (some value)) where
  unique := by
    intro l m other v w first second
    rw [at_splice vacant.le] at first second
    by_cases atL : l = n <;> by_cases atM : m = n
    · rw [atL, atM]
    · rw [if_pos atL] at first
      rw [if_neg atM] at second
      cases first
      exact absurd second (table.not_at absent)
    · rw [if_neg atL] at first
      rw [if_pos atM] at second
      cases second
      exact absurd first (table.not_at absent)
    · rw [if_neg atL] at first
      rw [if_neg atM] at second
      exact table.unique l m other v w first second
  binds := by
    intro other w
    by_cases same : other = key
    · subst same
      rw [update_self]
      constructor
      · intro bound
        refine ⟨n, (at_splice vacant.le n).mpr ?_⟩
        rw [if_pos rfl]
        cases bound
        rfl
      · rintro ⟨m, here⟩
        rw [at_splice vacant.le] at here
        by_cases atM : m = n
        · rw [if_pos atM] at here
          cases here
          rfl
        · rw [if_neg atM] at here
          exact absurd here (table.not_at absent)
    · rw [update_of_ne same, table.binds]
      constructor
      · rintro ⟨m, here⟩
        refine ⟨m, (at_splice vacant.le m).mpr ?_⟩
        rw [if_neg]
        · exact here
        · rintro rfl
          exact vacant.not_at here
      · rintro ⟨m, here⟩
        rw [at_splice vacant.le] at here
        by_cases atM : m = n
        · rw [if_pos atM] at here
          cases here
          exact absurd rfl same
        · rw [if_neg atM] at here
          exact ⟨m, here⟩

theorem Is.erase (table : slots.Is map) (here : slots.At n key value) :
    Is (splice slots n [none]) (update map key none) where
  unique := by
    intro l m other v w first second
    rw [at_splice (Nat.le_of_lt here.lt)] at first second
    by_cases atL : l = n
    · rw [if_pos atL] at first
      cases first
    · by_cases atM : m = n
      · rw [if_pos atM] at second
        cases second
      · rw [if_neg atL] at first
        rw [if_neg atM] at second
        exact table.unique l m other v w first second
  binds := by
    intro other w
    by_cases same : other = key
    · subst same
      rw [update_self]
      constructor
      · intro bound
        cases bound
      · rintro ⟨m, there⟩
        rw [at_splice (Nat.le_of_lt here.lt)] at there
        by_cases atM : m = n
        · rw [if_pos atM] at there
          cases there
        · rw [if_neg atM] at there
          exact absurd (table.unique m n other w value there here) atM
    · rw [update_of_ne same, table.binds]
      constructor
      · rintro ⟨m, there⟩
        refine ⟨m, (at_splice (Nat.le_of_lt here.lt) m).mpr ?_⟩
        rw [if_neg]
        · exact there
        · rintro rfl
          rw [At, here] at there
          cases there
          exact same rfl
      · rintro ⟨m, there⟩
        rw [at_splice (Nat.le_of_lt here.lt)] at there
        by_cases atM : m = n
        · rw [if_pos atM] at there
          cases there
        · rw [if_neg atM] at there
          exact ⟨m, there⟩

end Slots

end MemoryEncryption
