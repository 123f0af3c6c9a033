import Mathlib.Logic.Function.Basic

/-!
# Slots that hold resources

A program that allocates resources stores their names in slots: pointers, table
entries, fields of records. Nothing leaks and nothing is used twice when the
resources in use and the slots that are not null correspond one to one. This module
states that relation and what allocation and release do to it. Nothing in it names a
particular program.
-/

namespace MemoryEncryption

open Function

variable {σ β : Type} {null : β} {slot : σ → β} {used : β → Prop}

/-- The slots that are not null hold the resources in use, each of them in one slot. -/
structure Holding (null : β) (slot : σ → β) (used : β → Prop) : Prop where
  /-- Null is no resource. -/
  solid : ¬ used null
  /-- No resource is in two slots. -/
  single : ∀ s t, slot s ≠ null → slot s = slot t → s = t
  /-- What a slot holds is in use. -/
  marked : ∀ s, slot s ≠ null → used (slot s)
  /-- What is in use is in a slot. -/
  held : ∀ b, used b → ∃ s, slot s = b

namespace Holding

/-- The relation is about what the slots hold and about which resources are in use. -/
theorem congr {slot' : σ → β} {used' : β → Prop} (holding : Holding null slot used)
    (slots : ∀ s, slot' s = slot s) (uses : ∀ b, used' b ↔ used b) :
    Holding null slot' used' := by
  obtain rfl : slot' = slot := funext slots
  obtain rfl : used' = used := funext fun b => propext (uses b)
  exact holding

theorem not_held (holding : Holding null slot used) {b : β} (fresh : ¬ used b) (real : b ≠ null)
    (s : σ) : slot s ≠ b := by
  intro same
  subst same
  exact fresh (holding.marked s real)

/-- A resource that is not in use is put into an empty slot. -/
theorem claim [DecidableEq σ] (holding : Holding null slot used) {s : σ} {b : β}
    (empty : slot s = null) (fresh : ¬ used b) (real : b ≠ null) :
    Holding null (update slot s b) fun c => c = b ∨ used c where
  solid := by
    rintro (same | inUse)
    · exact real same.symm
    · exact holding.solid inUse
  single := by
    intro t u
    by_cases atT : t = s <;> by_cases atU : u = s
    · intro _ _
      rw [atT, atU]
    · subst atT
      simp only [update_self, update_of_ne atU]
      intro _ same
      exact absurd same.symm (holding.not_held fresh real u)
    · subst atU
      simp only [update_self, update_of_ne atT]
      intro _ same
      exact absurd same (holding.not_held fresh real t)
    · simp only [update_of_ne atT, update_of_ne atU]
      exact holding.single t u
  marked := by
    intro t
    by_cases atT : t = s
    · subst atT
      simp
    · simp only [update_of_ne atT]
      intro full
      exact .inr (holding.marked t full)
  held := by
    rintro c (rfl | inUse)
    · exact ⟨s, update_self ..⟩
    · obtain ⟨t, holds⟩ := holding.held c inUse
      have other : t ≠ s := by
        intro same
        subst same
        rw [holds] at empty
        exact holding.solid (empty ▸ inUse)
      exact ⟨t, by rw [update_of_ne other, holds]⟩

theorem release [DecidableEq σ] (holding : Holding null slot used) {s : σ}
    (full : slot s ≠ null) :
    Holding null (update slot s null) fun c => used c ∧ c ≠ slot s where
  solid := fun inUse => holding.solid inUse.1
  single := by
    intro t u
    by_cases atT : t = s
    · subst atT
      simp
    · by_cases atU : u = s
      · subst atU
        simp only [update_self, update_of_ne atT]
        intro nonnull same
        exact absurd same nonnull
      · simp only [update_of_ne atT, update_of_ne atU]
        exact holding.single t u
  marked := by
    intro t
    by_cases atT : t = s
    · subst atT
      simp
    · simp only [update_of_ne atT]
      intro nonnull
      exact ⟨holding.marked t nonnull, fun same => atT (holding.single t s nonnull same)⟩
  held := by
    rintro c ⟨inUse, other⟩
    obtain ⟨t, holds⟩ := holding.held c inUse
    have apart : t ≠ s := by
      intro same
      subst same
      exact other holds.symm
    exact ⟨t, by rw [update_of_ne apart, holds]⟩

end Holding

end MemoryEncryption
