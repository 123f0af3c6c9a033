import MemoryEncryption.Verif.QueueSteps

/-!
# What removals leave in the queue

`cq_remove` marks a slot empty and leaves its pointer there. Its search does not look
at the mark, so a later removal of the same entry finds the slot again, shifts the
slots behind it and moves the hand. A removal leaves the queue alone exactly when no
slot, in use or emptied, has the pointer.
-/

namespace MemoryEncryption

open ClockRing Outcome

section Calls

variable {τ α : Type} [DecidableEq α]

/-- A call on the queue of one process. -/
inductive QueueCall (τ α : Type) where
  /-- `cq_enset` of an address with its entry, in the memory it meets. -/
  | insert (store : τ) (va : Nat) (pte : α)
  /-- `cq_remove`. -/
  | remove (pte : α)

/-- One call. -/
def Queue.step (ops : EntryOps τ α) (queue : Queue α) : QueueCall τ α → Except Halt (Queue α)
  | .insert store va pte => do
    let (queue, _) ← cqEnset ops queue store va pte
    .ok queue
  | .remove pte => cqRemove queue pte

/-- No slot, in use or emptied, points to the entry. -/
def Queue.Lacks (pte : α) (queue : Queue α) : Prop :=
  ∀ i < clockSize, (queue.slot i).pte ≠ some pte

/-- A removal leaves the queue alone exactly when no slot has the pointer: a removal that finds one
moves the hand. -/
theorem Queue.remove_eq_self_iff {queue : Queue α} {pte : α} :
    cqRemove queue pte = .ok queue ↔ queue.Lacks pte := by
  constructor
  · intro removed
    rw [cqRemove] at removed
    split at removed
    case h_1 missing =>
      rw [Queue.find, List.find?_eq_none] at missing
      intro i bound
      simpa using missing i (List.mem_range.mpr bound)
    case h_2 del found =>
      obtain ⟨slot, -, same⟩ := bind_eq_ok.mp removed
      have hand : (if queue.hand = 0 then (clockSize : Int) - 1 else queue.hand - 1) =
          queue.hand := congrArg Dial.hand (Except.ok.inj same)
      by_cases first : queue.hand = 0
      · rw [if_pos first, first] at hand
        exact absurd hand (by decide)
      · rw [if_neg first] at hand
        omega
  · intro lacks
    exact cqRemove_absent lacks

end Calls

/-! ## Freeing pages -/

/-- Removing an entry that no slot in use and no emptied slot points to leaves the queue as it was,
and so does `deallocuvm` of the entry's page. -/
theorem Queue.remove_frame {queue : Queue PteAddr} {pte : PteAddr}
    (unheld : queue.holds pte = false)
    (forgotten : ∀ i < clockSize, (queue.slot i).empty = -1 → (queue.slot i).pte ≠ some pte) :
    cqRemove queue pte = .ok queue ∧
      ∀ (image : Image) (m : Mem (Queue PteAddr)) (own : Nat → Owner) (d oldsz newsz : Nat),
        Owned image m own → own d = .dir → oldsz ≤ kernBase → m.queue = queue →
        (∀ v, pagesBelow newsz ≤ v → v < pagesBelow oldsz → mapped (entry m d v) = true →
          pteAt m d v = some pte) →
        ∃ size final, deallocuvm image clockOps m d oldsz newsz = .ok (size, final) ∧
          final.queue = queue := by
  have lacks : queue.Lacks pte := by
    intro i bound same
    by_cases vacant : (queue.slot i).empty = -1
    · exact forgotten i bound vacant same
    · have found : queue.holds pte = true := by
        rw [Queue.holds, List.any_eq_true]
        exact ⟨i, List.mem_range.mpr bound, by simp [same, vacant]⟩
      simp [unheld] at found
  have removed := Queue.remove_eq_self_iff.mpr lacks
  refine ⟨removed, ?_⟩
  intro image m own d oldsz newsz owned live top same freed
  obtain ⟨final, -, returned, -, -, kept, -⟩ :=
    deallocuvm_spec clockOps newsz owned live top (by
      intro v pte' lower upper found isMapped
      rw [freed v lower upper isMapped] at found
      rw [same, ← Option.some.inj found]
      exact removed)
  exact ⟨_, final, returned, kept.trans same⟩

/-- The queue after page 1 has been touched. -/
def Queue.secondTouched : Queue PteAddr :=
  ⟨Function.update cqInit.slot 0 (cqFill 4096 ⟨402, 1⟩ (cqInit.slot 0)), 0⟩

/-- Freeing page 0, which was never touched, leaves alone the queue that page 1 is in. -/
theorem untouched_page_leaves_queue :
    run (Queue.step (entryOps 401)) cqInit [.insert (onePage cqInit).mem 4096 ⟨402, 1⟩] =
        .ok Queue.secondTouched ∧
      cqRemove Queue.secondTouched ⟨402, 0⟩ = .ok Queue.secondTouched ∧
      ∃ size final, deallocuvm sampleImage clockOps (onePage Queue.secondTouched).mem 401 4096 0 =
        .ok (size, final) ∧ final.queue = Queue.secondTouched := by
  have frame := Queue.remove_frame (show Queue.holds Queue.secondTouched ⟨402, 0⟩ = false by decide)
    (by decide)
  refine ⟨rfl, frame.1, frame.2 sampleImage _ (onePage Queue.secondTouched).own 401 4096 0
    (onePage Queue.secondTouched).owned ?_ (by decide) rfl ?_⟩
  · rw [Setup.own_dir]
    exact .inr rfl
  · intro v _ upper _
    obtain rfl : v = 0 := by
      unfold pagesBelow at upper
      omega
    rfl

/-- A page is touched and freed, which empties its slot. Grown again and not touched, it is in no
slot in use, but freeing it moves the hand. -/
theorem regrown_page_moves_hand :
    ∃ queue, run (Queue.step (entryOps 401)) cqInit
        [.insert (onePage cqInit).mem 0 ⟨402, 0⟩, .remove ⟨402, 0⟩] = .ok queue ∧
      queue.holds ⟨402, 0⟩ = false ∧ cqRemove queue ⟨402, 0⟩ ≠ .ok queue ∧
      ∃ size final, deallocuvm sampleImage clockOps (onePage queue).mem 401 4096 0 =
        .ok (size, final) ∧ final.queue ≠ queue := by
  refine ⟨_, rfl, by decide, ?_, ?_⟩
  · rw [ne_eq, Queue.remove_eq_self_iff]
    intro lacks
    exact lacks 0 (by decide) rfl
  · refine ⟨_, _, rfl, ?_⟩
    intro same
    exact absurd (congrArg Dial.hand same) (by decide)

end MemoryEncryption
