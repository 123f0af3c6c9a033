import Mathlib.Data.List.Basic

/-!
# Writing a stretch over a sequence

A sequence without end, with a stretch of it replaced. Stretches that follow one
another are one stretch, and reading a stretch back gives what was written. Nothing
in it names a particular program.
-/

namespace MemoryEncryption

variable {α : Type} {f : Nat → α} {start : Nat} {items more : List α}

/-- A sequence with the items written over it, from `start` on. -/
def overlay (f : Nat → α) (start : Nat) (items : List α) : Nat → α := fun a =>
  if start ≤ a then (items[a - start]?).getD (f a) else f a

/-- A stretch of a sequence, as a list. -/
def stretch (f : Nat → α) (start n : Nat) : List α := (List.range n).map fun k => f (start + k)

@[simp] theorem overlay_nil (f : Nat → α) (start : Nat) : overlay f start [] = f := by
  funext a
  simp [overlay]

theorem overlay_outside {a : Nat} (outside : a < start ∨ start + items.length ≤ a) :
    overlay f start items a = f a := by
  unfold overlay
  split
  · rw [List.getElem?_eq_none (by omega)]
    rfl
  · rfl

theorem overlay_inside {k : Nat} (inside : k < items.length) :
    overlay f start items (start + k) = items[k] := by
  simp [overlay, inside]

/-- Two stretches, the second where the first ends, are written as one. -/
theorem overlay_append :
    overlay (overlay f start items) (start + items.length) more =
      overlay f start (items ++ more) := by
  funext a
  by_cases before : a < start + items.length
  · rw [overlay_outside (.inl before)]
    unfold overlay
    split
    · rw [List.getElem?_append_left (by omega)]
    · rfl
  · obtain ⟨k, rfl⟩ := Nat.exists_eq_add_of_le (show start + items.length ≤ a by omega)
    by_cases within : k < more.length
    · rw [overlay_inside within, Nat.add_assoc, overlay_inside (by rw [List.length_append]; omega),
        List.getElem_append_right (by omega)]
      simp
    · rw [overlay_outside (by omega), overlay_outside (by omega),
        overlay_outside (by rw [List.length_append]; omega)]

/-- Sequences that agree at a place agree there after the same write. -/
theorem overlay_congr {g : Nat → α} {a : Nat} (same : f a = g a) :
    overlay f start items a = overlay g start items a := by
  unfold overlay
  rw [same]

@[simp] theorem length_stretch (f : Nat → α) (start n : Nat) : (stretch f start n).length = n := by
  simp [stretch]

/-- Sequences that agree on a stretch have the same stretch. -/
theorem stretch_congr {g : Nat → α} {n : Nat} (same : ∀ k < n, f (start + k) = g (start + k)) :
    stretch f start n = stretch g start n :=
  List.map_congr_left fun k inside => same k (List.mem_range.mp inside)

@[simp] theorem stretch_getElem (f : Nat → α) (start n k : Nat)
    (inside : k < (stretch f start n).length) : (stretch f start n)[k] = f (start + k) := by
  simp [stretch]

theorem stretch_overlay : stretch (overlay f start items) start items.length = items := by
  apply List.ext_getElem (by simp)
  intro k inside _
  simp only [length_stretch] at inside
  simp [stretch, overlay_inside inside]

theorem stretch_succ (f : Nat → α) (start n : Nat) :
    stretch f start (n + 1) = f start :: stretch f (start + 1) n := by
  rw [stretch, List.range_succ_eq_map, List.map_cons, List.map_map, stretch]
  congr 1
  exact List.map_congr_left fun k _ => congrArg f (by rw [Nat.add_assoc, Nat.add_comm 1 k])

theorem stretch_take (f : Nat → α) (start : Nat) {k n : Nat} (short : k ≤ n) :
    (stretch f start n).take k = stretch f start k := by
  rw [stretch, ← List.map_take, List.take_range, Nat.min_eq_left short, stretch]

theorem stretch_drop (f : Nat → α) (start k n : Nat) :
    (stretch f start n).drop k = stretch f (start + k) (n - k) := by
  induction k generalizing start n with
  | zero => rfl
  | succ k ih =>
    cases n with
    | zero => simp [stretch]
    | succ n =>
      rw [stretch_succ, List.drop_succ_cons, ih, Nat.add_sub_add_right, Nat.add_assoc,
        Nat.add_comm 1 k]

end MemoryEncryption
