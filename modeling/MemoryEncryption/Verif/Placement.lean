import Mathlib.Data.Nat.Find
import MemoryEncryption.Verif.OneProcess

/-!
# Where `cq_enset` puts a page

The loop of `cq_enset` has no bound of its own. If the nodes in use point to distinct
entries, it examines no node twice, except that after a full lap it returns to the
first one, whose reference bit it has cleared itself. So it ends within one more
round than there are nodes, and the node it takes, the bits it clears and the page it
evicts can be read off the queue before the call.
-/

namespace MemoryEncryption

open ClockRing

variable {σ : Type} {m : Mem σ} {queue : Queue PteAddr} {d va : Nat} {pte : PteAddr}

/-- The node that the loop of `cq_enset` examines after `k` others. -/
def Queue.nodeAhead (queue : Queue PteAddr) (k : Nat) : CqNode PteAddr :=
  queue.slot (queue.ahead clockSize k)

/-- The loop of `cq_enset` passes over this node: it is in use and its page has been referenced. -/
def Queue.Passed (queue : Queue PteAddr) (m : Mem σ) (k : Nat) : Prop :=
  (queue.nodeAhead k).empty ≠ -1 ∧
    ∃ pte, (queue.nodeAhead k).pte = some pte ∧ has (m.get pte) pteA = true

/-- Memory after `PTE_A` has been cleared in the entries of the first `r` nodes. -/
def Queue.spare (queue : Queue PteAddr) (m : Mem σ) (r : Nat) : Mem σ :=
  { m with word := fun f i =>
      if ∃ k < r, (queue.nodeAhead k).pte = some ⟨f, i⟩ then m.word f i &&& ~~~pteA
      else m.word f i }

/-- What `cq_enset` does for a page that it puts into the node after `r` others. -/
structure Queue.Placed (queue : Queue PteAddr) (m : Mem σ) (d va : Nat) (pte : PteAddr) (r : Nat) :
    Prop where
  /-- It makes at most one lap before it examines the node. -/
  lap : r ≤ clockSize
  /-- It has passed over the nodes before it. -/
  passed : ∀ k < r, queue.Passed m k
  /-- Within the first lap, it is the first node that is empty or not referenced. -/
  first : r < clockSize → ¬ queue.Passed m r
  /-- After a lap it is the one after the hand again. -/
  second : r = clockSize → queue.ahead clockSize r = queue.next clockSize
  /-- It clears the bits of the nodes passed over, hands the page of a node in use to `mencrypt`, and
  fills the node, where it leaves the hand. -/
  result : cqEnset (entryOps d) queue m va pte = (do
    let final ← if (queue.nodeAhead r).empty = -1 then .ok (queue.spare m r)
      else (entryOps d).mencrypt (queue.spare m r) (queue.nodeAhead r).va
    .ok (⟨Function.update queue.slot (queue.ahead clockSize r) (cqFill va pte (queue.nodeAhead r)),
      queue.ahead clockSize r⟩, final))
  /-- It returns if the page it evicts has a page table. -/
  returns : (queue.nodeAhead r).empty = -1 ∨ ((queue.nodeAhead r).va < 2 ^ 32 ∧
      pteAt m d ((queue.nodeAhead r).va / pgSize) ≠ none) →
    ∃ after final, cqEnset (entryOps d) queue m va pte = .ok (after, final)

@[simp] theorem Queue.spare_zero (queue : Queue PteAddr) (m : Mem σ) : queue.spare m 0 = m := by
  simp [Queue.spare]

variable {k : Nat}

theorem Queue.spare_succ (queue : Queue PteAddr) (m : Mem σ)
    (pointer : (queue.nodeAhead k).pte = some pte) :
    queue.spare m (k + 1) =
      (queue.spare m k).set pte ((queue.spare m k).get pte &&& ~~~pteA) := by
  have words : (queue.spare m (k + 1)).word =
      ((queue.spare m k).set pte ((queue.spare m k).get pte &&& ~~~pteA)).word := by
    funext f i
    have twice : ∀ word : Word, word &&& ~~~pteA &&& ~~~pteA = word &&& ~~~pteA := by
      intro word
      rw [BitVec.and_assoc, BitVec.and_self]
    have split : (∃ j < k + 1, (queue.nodeAhead j).pte = some ⟨f, i⟩) ↔
        (∃ j < k, (queue.nodeAhead j).pte = some ⟨f, i⟩) ∨ (f = pte.frame ∧ i = pte.index) := by
      constructor
      · rintro ⟨j, inside, same⟩
        by_cases last : j = k
        · subst last
          obtain rfl := Option.some.inj (pointer.symm.trans same)
          exact .inr ⟨rfl, rfl⟩
        · exact .inl ⟨j, by omega, same⟩
      · rintro (⟨j, inside, same⟩ | ⟨rfl, rfl⟩)
        · exact ⟨j, by omega, same⟩
        · exact ⟨k, by omega, pointer⟩
    rw [Mem.set_word]
    simp only [Queue.spare, split, Mem.get]
    by_cases here : f = pte.frame ∧ i = pte.index
    · obtain ⟨rfl, rfl⟩ := here
      simp only [and_self, or_true, ↓reduceIte]
      split_ifs
      · exact (twice _).symm
      · rfl
    · simp only [here, or_false, ↓reduceIte]
  have parts : ∀ left right : Mem σ, left.word = right.word → left.freelist = right.freelist →
      left.oom = right.oom → left.marks = right.marks → left.queue = right.queue → left = right := by
    rintro ⟨⟩ ⟨⟩ rfl rfl rfl rfl rfl
    rfl
  exact parts _ _ words rfl rfl rfl rfl

theorem Queue.pteAt_spare (queue : Queue PteAddr) (m : Mem σ) (r d v : Nat) :
    pteAt (queue.spare m r) d v = pteAt m d v := by
  have same : tableOf (queue.spare m r) d (v / 1024) = tableOf m d (v / 1024) := by
    have kept : has ((queue.spare m r).word d (v / 1024)) pteP = has (m.word d (v / 1024)) pteP ∧
        frameOf ((queue.spare m r).word d (v / 1024)) = frameOf (m.word d (v / 1024)) := by
      simp only [Queue.spare]
      split
      · refine ⟨?_, frameOf_clear _ (by decide)⟩
        simp only [has_pteP, BitVec.getLsbD_and, BitVec.getLsbD_not]
        simp [pteA]
      · exact ⟨rfl, rfl⟩
    rw [tableOf, tableOf, kept.1, kept.2]
  rw [pteAt, pteAt, same]

/-- `mencrypt` of one page returns if the page has a page table. -/
theorem mencrypt_returns (bound : va < 2 ^ 32) (found : pteAt m d (va / pgSize) ≠ none) :
    ∃ done final, mencrypt m d va 1 = .ok (done, final) := by
  have page := page_of_address bound
  have only : ∀ k < (1 : Int).toNat, (va / pgSize + k) % 2 ^ 20 = va / pgSize := by
    intro k inside
    obtain rfl : k = 0 := Nat.lt_one_iff.mp inside
    rw [Nat.add_zero, Nat.mod_eq_of_lt page]
  rw [mencrypt, show pgRoundDown va = va / pgSize * pgSize by rfl]
  rcases mencryptCheck_spec m d (1 : Int).toNat page with
    ⟨passed, -⟩ | ⟨failed, -⟩ | ⟨-, k, inside, absent⟩
  · rw [passed]
    obtain ⟨pte, there⟩ := Option.ne_none_iff_exists'.mp found
    have looped := mencryptPages_loop d (1 : Int).toNat (fun k now => k = 0 → now = m) page ?_
      (fun _ => rfl)
    · obtain ⟨final, ran, -⟩ := looped
      simp only [Outcome.ok_bind, ↓reduceIte, ran]
      exact ⟨true, final, rfl⟩
    · intro k inside now same
      obtain rfl : k = 0 := Nat.lt_one_iff.mp inside
      rw [same rfl, only 0 inside]
      exact ⟨pte, there, by omega, by omega⟩
  · rw [failed]
    exact ⟨false, m, rfl⟩
  · rw [only k inside] at absent
    exact absurd absent found

/-- The entries that nodes in use point to are distinct. -/
def Queue.Distinct (queue : Queue PteAddr) : Prop :=
  ∀ i < clockSize, ∀ j < clockSize, (queue.slot i).empty ≠ -1 → (queue.slot j).empty ≠ -1 →
    (queue.slot i).pte = (queue.slot j).pte → i = j

/-- Of two nodes ahead that are in use and less than a lap apart, the first does not have the
entry of the second. -/
theorem Queue.Distinct.ahead (distinct : queue.Distinct) {j : Nat} (before : j < k)
    (lap : k < clockSize) (used : (queue.nodeAhead j).empty ≠ -1)
    (used' : (queue.nodeAhead k).empty ≠ -1) :
    (queue.nodeAhead j).pte ≠ (queue.nodeAhead k).pte := by
  intro same
  have slots := distinct _ (Nat.mod_lt _ (by decide)) _ (Nat.mod_lt _ (by decide)) used used' same
  have positions := position_injective (by omega) lap slots
  omega

/-- The reference bit of a node in use that has not been passed over yet is the one before the
call. -/
theorem Queue.Distinct.get_spare (distinct : queue.Distinct) (lap : k < clockSize)
    (passed : ∀ j < k, queue.Passed m j) (used : (queue.nodeAhead k).empty ≠ -1)
    (pointer : (queue.nodeAhead k).pte = some pte) : (queue.spare m k).get pte = m.get pte := by
  have fresh : ¬ ∃ j < k, (queue.nodeAhead j).pte = some ⟨pte.frame, pte.index⟩ := by
    rintro ⟨j, before, same⟩
    exact distinct.ahead before lap (passed j before).1 used (same.trans pointer.symm)
  simp only [Queue.spare, Mem.get, fresh, ↓reduceIte]

/-- How many nodes are passed over: all of a lap, or those before the first that is not. -/
theorem Queue.exists_passed (queue : Queue PteAddr) (m : Mem σ) :
    ∃ r ≤ clockSize, (∀ k < r, queue.Passed m k) ∧ (r < clockSize → ¬ queue.Passed m r) := by
  classical
  have some : ∃ r, r = clockSize ∨ ¬ queue.Passed m r := ⟨clockSize, .inl rfl⟩
  refine ⟨Nat.find some, Nat.find_min' some (.inl rfl), fun k before => ?_, fun early => ?_⟩
  · by_contra stops
    exact Nat.find_min some before (.inr stops)
  · exact (Nat.find_spec some).resolve_left (by omega)

/-- A page that some node in use holds changes nothing. Any other page goes to the first node after
the hand that is empty or not referenced, or to the one after the hand if there is none. -/
theorem cqEnset_places (m : Mem σ) (queue : Queue PteAddr) (d va : Nat) (pte : PteAddr)
    (pointers : ∀ i < clockSize, (queue.slot i).empty ≠ -1 → (queue.slot i).pte ≠ none)
    (distinct : queue.Distinct) :
    (queue.holds pte = true → cqEnset (entryOps d) queue m va pte = .ok (queue, m)) ∧
      (queue.holds pte = false → ∃ r, queue.Placed m d va pte r) := by
  refine ⟨fun held => by rw [cqEnset, if_pos held], fun fresh => ?_⟩
  obtain ⟨r, lap, passed, first⟩ := queue.exists_passed m
  have second : r = clockSize → queue.ahead clockSize r = queue.next clockSize := by
    rintro rfl
    rw [Dial.ahead, Nat.add_mod_right]
    exact Nat.mod_eq_of_lt (queue.next_lt (by decide))
  let policy : Policy (CqNode PteAddr) (Mem σ) Halt := cqPolicy (entryOps d)
  have cleared : ∀ k < r, policy.empty (queue.nodeAhead k) = false ∧
      policy.referenced (queue.spare m k) (queue.nodeAhead k) = .ok true ∧
      policy.clear (queue.spare m k) (queue.nodeAhead k) = .ok (queue.spare m (k + 1)) := by
    intro k before
    obtain ⟨used, pte', pointer, referenced⟩ := passed k before
    have bit := distinct.get_spare (by omega) (fun j earlier => passed j (by omega)) used pointer
    refine ⟨by simpa [policy, cqPolicy] using used, ?_, ?_⟩
    · simp only [policy, cqPolicy, entryOps, pointer, bit, referenced]
    · simp only [policy, cqPolicy, entryOps, pointer, queue.spare_succ m pointer]
  have stops : policy.empty (queue.nodeAhead r) = true ∨
      policy.referenced (queue.spare m r) (queue.nodeAhead r) = .ok false := by
    by_cases vacant : (queue.nodeAhead r).empty = -1
    · exact .inl (by simp [policy, cqPolicy, vacant])
    right
    obtain ⟨pte', pointer⟩ := Option.ne_none_iff_exists'.mp
      (pointers _ (Nat.mod_lt _ (by decide)) vacant)
    change (queue.nodeAhead r).pte = some pte' at pointer
    have idle : has ((queue.spare m r).get pte') pteA = false := by
      by_cases early : r < clockSize
      · rw [distinct.get_spare early passed vacant pointer]
        by_contra referenced
        exact first early ⟨vacant, pte', pointer, by simpa using referenced⟩
      · -- the lap is complete, and this node was the first to lose its bit
        have full : r = clockSize := by omega
        have again : ∃ k < r, (queue.nodeAhead k).pte = some ⟨pte'.frame, pte'.index⟩ := by
          refine ⟨0, by rw [full]; decide, ?_⟩
          have same : queue.ahead clockSize 0 = queue.ahead clockSize r := by
            rw [second full]
            exact Nat.mod_eq_of_lt (queue.next_lt (by decide))
          rw [Queue.nodeAhead, same]
          exact pointer
        simp only [Queue.spare, Mem.get, again, ↓reduceIte, has_pteA]
        simp [pteA]
    simp only [policy, cqPolicy, entryOps, pointer, idle]
  have taken : sweep policy clockSize (cqFill va pte) (clockSize + 1) queue (queue.spare m 0) = (do
      let final ← if policy.empty (queue.nodeAhead r) = true then .ok (queue.spare m r)
        else policy.evict (queue.spare m r) (queue.nodeAhead r)
      .ok (⟨Function.update queue.slot (queue.ahead clockSize r)
        (cqFill va pte (queue.nodeAhead r)), queue.ahead clockSize r⟩, final)) :=
    sweep_takes (by decide) (show r < clockSize + 1 by omega) (queue.spare m) cleared stops
  have isEmpty : policy.empty (queue.nodeAhead r) = true ↔ (queue.nodeAhead r).empty = -1 := by
    simp [policy, cqPolicy]
  rw [queue.spare_zero] at taken
  simp only [isEmpty] at taken
  have result : cqEnset (entryOps d) queue m va pte = (do
      let final ← if (queue.nodeAhead r).empty = -1 then .ok (queue.spare m r)
        else (entryOps d).mencrypt (queue.spare m r) (queue.nodeAhead r).va
      .ok (⟨Function.update queue.slot (queue.ahead clockSize r)
        (cqFill va pte (queue.nodeAhead r)), queue.ahead clockSize r⟩, final)) := by
    rw [cqEnset, fresh]
    exact taken
  refine ⟨r, lap, passed, first, second, result, fun known => ?_⟩
  rw [result]
  by_cases vacant : (queue.nodeAhead r).empty = -1
  · simp only [vacant, ↓reduceIte, Outcome.ok_bind]
    exact ⟨_, _, rfl⟩
  · obtain ⟨bound, found⟩ := known.resolve_left vacant
    rw [← queue.pteAt_spare m r] at found
    obtain ⟨done, final, encrypted⟩ := mencrypt_returns bound found
    simp only [vacant, ↓reduceIte, entryOps, encrypted, Outcome.ok_bind]
    exact ⟨_, _, rfl⟩

/-- The ninth page passes over all eight and takes the place of the first. -/
theorem cqEnset_places_lap :
    ∃ r, fullLap.queue.Placed fullLap.mem 401 (8 * 4096) ⟨402, 8⟩ r := by
  refine (cqEnset_places fullLap.mem fullLap.queue 401 (8 * 4096) ⟨402, 8⟩ ?_ ?_).2
    (by decide +kernel)
  · intro i _ _
    simp [fullLap]
  · intro i _ j _ _ _ same
    simpa [fullLap] using same

end MemoryEncryption
