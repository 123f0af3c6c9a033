import Mathlib.Data.List.Basic

/-!
# Splicing sequences

A write into a file replaces a stretch of a sequence and may run past its end. This
module states what the result is, place by place, and that writes one after the other
are a single write. Nothing in it names a particular program.
-/

namespace MemoryEncryption

variable {α : Type} {old new more : List α} {off : Nat}

/-- A sequence with a stretch of it replaced, longer if the new stretch runs past its end. -/
def splice (old : List α) (off : Nat) (new : List α) : List α :=
  old.take off ++ new ++ old.drop (off + new.length)

theorem length_splice (inside : off ≤ old.length) (new : List α) :
    (splice old off new).length = max old.length (off + new.length) := by
  simp only [splice, List.length_append, List.length_take, List.length_drop]
  omega

@[simp] theorem splice_nil (old : List α) (off : Nat) : splice old off [] = old := by
  simp [splice]

theorem getElem?_splice_new (inside : off ≤ old.length) {o : Nat} (lower : off ≤ o)
    (upper : o < off + new.length) : (splice old off new)[o]? = new[o - off]? := by
  have taken : (old.take off).length = off := by
    rw [List.length_take]
    omega
  rw [splice, List.append_assoc, List.getElem?_append_right (by omega), taken,
    List.getElem?_append_left (by omega)]

theorem getElem?_splice_old (inside : off ≤ old.length) {o : Nat}
    (outside : o < off ∨ off + new.length ≤ o) : (splice old off new)[o]? = old[o]? := by
  have taken : (old.take off).length = off := by
    rw [List.length_take]
    omega
  rcases outside with before | after
  · rw [splice, List.append_assoc, List.getElem?_append_left (by omega),
      List.getElem?_take_of_lt before]
  · rw [splice, List.getElem?_append_right (by rw [List.length_append]; omega),
      List.getElem?_drop, List.length_append, taken]
    congr 1
    omega

/-- Two stretches, the second where the first ends, are spliced in as one. -/
theorem splice_splice (inside : off ≤ old.length) :
    splice (splice old off new) (off + new.length) more = splice old off (new ++ more) := by
  have longer : off + new.length ≤ (splice old off new).length := by
    rw [length_splice inside]
    omega
  apply List.ext_getElem?
  intro o
  by_cases inNew : off ≤ o ∧ o < off + new.length
  · rw [getElem?_splice_old longer (.inl inNew.2), getElem?_splice_new inside inNew.1 inNew.2,
      getElem?_splice_new inside inNew.1 (by rw [List.length_append]; omega),
      List.getElem?_append_left (by omega)]
  · by_cases inMore : off + new.length ≤ o ∧ o < off + new.length + more.length
    · rw [getElem?_splice_new longer inMore.1 inMore.2,
        getElem?_splice_new inside (by omega) (by rw [List.length_append]; omega),
        List.getElem?_append_right (by omega)]
      congr 1
      omega
    · rw [getElem?_splice_old longer (by omega), getElem?_splice_old inside (by omega),
        getElem?_splice_old inside (by rw [List.length_append]; omega)]

/-- A sequence that has the new places and otherwise the old ones is the spliced one. -/
theorem splice_eq_map {f g : Nat → α} {size : Nat} (inside : off ≤ size)
    (stored : ∀ o, off ≤ o → o < off + new.length → some (g o) = new[o - off]?)
    (kept : ∀ o, o < size → o < off ∨ off + new.length ≤ o → g o = f o) :
    (List.range (max size (off + new.length))).map g =
      splice ((List.range size).map f) off new := by
  have within : off ≤ ((List.range size).map f).length := by simpa using inside
  apply List.ext_getElem?
  intro o
  by_cases inNew : off ≤ o ∧ o < off + new.length
  · rw [getElem?_splice_new within inNew.1 inNew.2, ← stored o inNew.1 inNew.2, List.getElem?_map,
      List.getElem?_range (by omega)]
    rfl
  · rw [getElem?_splice_old within (by omega)]
    by_cases short : o < size
    · simp [List.getElem?_range (show o < max size (off + new.length) by omega),
        List.getElem?_range short, kept o short (by omega)]
    · rw [List.getElem?_eq_none (by simp; omega), List.getElem?_eq_none (by simp; omega)]

end MemoryEncryption
