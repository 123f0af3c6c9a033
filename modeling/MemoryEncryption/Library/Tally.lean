import Mathlib.Algebra.Order.BigOperators.Group.Finset
import Mathlib.Data.Fintype.BigOperators

/-!
# Tallies over finitely many places

A counter that a program keeps beside a table is right when it equals the sum, over
the places of the table, of what each place counts for. Programs change one place
at a time; the sum then changes by what that place counts for before and after.
Nothing in this module names a particular program.
-/

namespace MemoryEncryption

variable {ι α : Type} [Fintype ι]

/-- The sum of what the places of a table count for. -/
def tally (worth : α → Nat) (table : ι → α) : Nat := ∑ i, worth (table i)

/-- Writing one place changes the tally by what that place counts for. -/
theorem tally_update [DecidableEq ι] (worth : α → Nat) (table : ι → α) (i : ι) (value : α) :
    tally worth (Function.update table i value) + worth (table i) =
      tally worth table + worth value := by
  have changed : ∀ j, worth (Function.update table i value j) =
      Function.update (fun j => worth (table j)) i (worth value) j := by
    intro j
    by_cases same : j = i
    · subst same
      simp
    · simp [Function.update_of_ne same]
  simp only [tally, changed]
  rw [Finset.sum_update_of_mem (Finset.mem_univ i),
    ← Finset.sum_sdiff (Finset.subset_univ {i}) (f := fun j => worth (table j))]
  simp only [Finset.sum_singleton]
  omega

variable {worth : α → Nat}

/-- Tables whose places count for the same have the same tally. -/
theorem tally_congr {left right : ι → α} (same : ∀ i, worth (left i) = worth (right i)) :
    tally worth left = tally worth right :=
  Finset.sum_congr rfl fun i _ => same i

theorem le_tally (worth : α → Nat) (table : ι → α) (i : ι) :
    worth (table i) ≤ tally worth table :=
  Finset.single_le_sum (f := fun j => worth (table j)) (fun _ _ => Nat.zero_le _)
    (Finset.mem_univ i)

theorem tally_eq_zero {table : ι → α} : tally worth table = 0 ↔ ∀ i, worth (table i) = 0 := by
  simp [tally]

end MemoryEncryption
