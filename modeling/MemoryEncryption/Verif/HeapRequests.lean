import MemoryEncryption.Verif.HeapBlocks

/-!
# Requests to the user heap

`malloc` rounds a request up to headers, and `morecore` passes their bytes to `sbrk` as
an `int`. Both wrap near the top of the range: below `2 ^ 31 - 16` bytes neither does,
and then a block that `malloc` takes has room for the request in whatever state the
headers are.
-/

namespace MemoryEncryption

open Outcome

namespace Heap

variable {h : Heap} {sbrk : Option Nat} {nunits : Nat}

/-- The header of a block that `malloc` takes records what it looked for. -/
theorem take_records (h : Heap) (prevp nunits : Nat) :
    ∃ bp, (h.take prevp nunits).1 = headerAt bp 1 ∧ (h.take prevp nunits).2.size bp = nunits := by
  by_cases whole : h.size (h.ptr prevp) = nunits
  · rw [take, if_pos whole]
    exact ⟨h.ptr prevp, rfl, whole⟩
  · rw [take, if_neg whole]
    exact ⟨_, rfl, Function.update_self _ _ _⟩

theorem mallocLoop_records {rounds prevp : Nat} {r : Nat × Heap}
    (returned : mallocLoop sbrk nunits rounds h prevp = .ok r) :
    r.1 = 0 ∨ ∃ bp, r.1 = headerAt bp 1 ∧ r.2.size bp = nunits := by
  induction rounds generalizing h prevp with
  | zero => cases returned
  | succ rounds ih =>
    rw [mallocLoop] at returned
    split at returned
    · cases returned
      exact .inr (take_records h prevp nunits)
    split at returned
    · obtain ⟨⟨p, h'⟩, _, rest⟩ := bind_eq_ok.mp returned
      dsimp only at rest
      split at rest
      case isTrue null =>
        cases rest
        exact .inl rfl
      case isFalse => exact ih rest
    · exact ih returned

/-- The bytes of a request for fewer than `2 ^ 28` headers are a positive `int`. -/
theorem sbrkArgument_eq (few : nunits < 2 ^ 28) :
    sbrkArgument nunits = moreBytes nunits ∧ 0 < sbrkArgument nunits := by
  have range : 0 < moreBytes nunits ∧ moreBytes nunits < 2 ^ 31 := by
    unfold moreBytes headerSize
    split <;> omega
  have same : sbrkArgument nunits = moreBytes nunits := by
    show (BitVec.ofNat 32 (moreBytes nunits)).toInt = _
    rw [BitVec.toInt_ofNat', Int.bmod_eq_of_le (by omega) (by omega)]
  omega

end Heap

namespace HeapUser

open Heap

/-- For a request of at most `2 ^ 31 - 16` bytes the argument of `sbrk` is positive and is what the
new header records; in every state of the headers `malloc` returns 0 or a block with room for the
request; and where the blocks are laid out and `sbrk` returns -1 or fresh memory, it returns. -/
theorem malloc_room (s : HeapUser) (nbytes : Nat) (sbrk : Option Nat) (few : nbytes + 16 ≤ 2 ^ 31) :
    (0 < sbrkArgument (units nbytes) ∧ ∀ (h : Heap) (p : Nat), ∃ recorded : Heap,
      h.morecore (some p) (units nbytes) = (do
        let h ← recorded.free (headerAt p 1)
        pure (h.freep, h)) ∧
      sbrkArgument (units nbytes) = recorded.size p * headerSize) ∧
    (∀ (h : Heap) ap h', h.malloc nbytes sbrk = .ok (ap, h') →
      ap = 0 ∨ ∃ bp, ap = headerAt bp 1 ∧ nbytes ≤ headerSize * h'.size bp - headerSize) ∧
    (s.Ready → (∀ a ∈ sbrk, s.heap.Fresh a (moreBytes (units nbytes))) →
      s.Clear (.malloc nbytes sbrk) →
      ∃ s', s.step (.malloc nbytes sbrk) = .ok s' ∧ s'.Ready ∧
        Serves s s' (.malloc nbytes sbrk)) := by
  obtain ⟨_, headers, room⟩ := units_room few
  obtain ⟨exactly, positive⟩ := sbrkArgument_eq headers
  refine ⟨⟨positive, ?_⟩, ?_, fun ready fresh clear => ready.malloc few fresh clear⟩
  · intro h p
    refine ⟨_, rfl, exactly.trans ?_⟩
    simp only [setSize, Function.update_self, moreBytes, Int.natCast_mul]
  · intro h ap h' returned
    refine (mallocLoop_records returned).imp id ?_
    rintro ⟨bp, pointer, size⟩
    exact ⟨bp, pointer, size ▸ room⟩

/-- The first request of a program gets a block from the memory that `sbrk` gives. -/
theorem malloc_room_first : 20 + 16 ≤ 2 ^ 31 ∧ ∃ s',
    (atBase 4096).step (.malloc 20 (some 8192)) = .ok s' ∧
      Serves (atBase 4096) s' (.malloc 20 (some 8192)) := by
  have unused : (atBase 4096).Unused := ⟨rfl, by decide, rfl, rfl⟩
  have allowed : (atBase 4096).Allowed (.malloc 20 (some 8192)) := by decide
  obtain ⟨s', returned, _, serves⟩ := (malloc_room (atBase 4096) 20 (some 8192) (by decide)).2.2
    (.inl unused) allowed.2 (by decide)
  exact ⟨by decide, s', returned, serves⟩

/-- A request of `2 ^ 32 - 1` bytes is rounded to one header and gets a block without room, one of
`2 ^ 31` bytes asks `sbrk` for a negative number of bytes, and one of `2 ^ 32 - 8` for none. -/
theorem malloc_wraps :
    (∃ r, (atBase 4096).heap.malloc (2 ^ 32 - 1) (some 8192) = .ok r ∧
      (r.1, headerSize * r.2.size (r.1 - headerSize) - headerSize) = (40960, 0)) ∧
    sbrkArgument (units (2 ^ 31)) = -2147483640 ∧ sbrkArgument (units (2 ^ 32 - 8)) = 0 := by
  have returns : (((atBase 4096).heap.malloc (2 ^ 32 - 1) (some 8192)).map fun r =>
      (r.1, headerSize * r.2.size (r.1 - headerSize) - headerSize)).toOption = some (40960, 0) := by
    decide +kernel
  exact ⟨exists_ok returns, by decide, by decide⟩

end HeapUser

end MemoryEncryption
