import MemoryEncryption.Verif.OneProcess
import MemoryEncryption.Verif.UserSteps

/-!
# What a page fault in user mode comes to

The fault is taken for any queue, also one with pointers into page tables that are
gone: clearing `PTE_A` through a stale pointer changes no flag that matters here. The
access goes through after the fault if the page is one the user may access and the
page evicted for it is another one. Where the entry lacks `PTE_U`, as on the guard page
below the stack, `mdecrypt` complements the page and returns, and the access faults
again.
-/

namespace MemoryEncryption

open ClockRing Outcome

variable {σ : Type} {image : Image} {own : Nat → Owner}

/-- Clearing `PTE_A` in any word of memory leaves the labels right, entries where they are, and
their other flags. -/
theorem Owned.clearAny {m : Mem σ} (owned : Owned image m own) (pte : PteAddr) :
    Owned image (m.set pte (m.get pte &&& ~~~pteA)) own ∧
      (∀ e v, pteAt (m.set pte (m.get pte &&& ~~~pteA)) e v = pteAt m e v) ∧
      ∀ e v k, k ≠ 5 → (entry (m.set pte (m.get pte &&& ~~~pteA)) e v).getLsbD k =
        (entry m e v).getLsbD k := by
  generalize after : m.set pte (m.get pte &&& ~~~pteA) = m'
  have words : ∀ f i, m'.word f i = m.word f i ∨ m'.word f i = m.word f i &&& ~~~pteA := by
    intro f i
    subst after
    by_cases here : f = pte.frame ∧ i = pte.index
    · right
      simp [here, Mem.get]
    · left
      simp [here]
  have tables : ∀ d i, tableOf m' d i = tableOf m d i := by
    intro d i
    rw [tableOf, tableOf]
    rcases words d i with same | cleared
    · rw [same]
    · rw [cleared, frameOf_clear _ (by decide), has_pteP, has_pteP]
      simp [pteA]
  have addresses : ∀ e v, pteAt m' e v = pteAt m e v := by
    intro e v
    rw [pteAt, pteAt, tables]
  have entries : ∀ e v, entry m' e v = entry m e v ∨ entry m' e v = entry m e v &&& ~~~pteA := by
    intro e v
    rw [entry, entry, addresses]
    cases pteAt m e v with
    | none => exact .inl rfl
    | some address => exact words address.frame address.index
  have flags : ∀ e v k, k ≠ 5 → (entry m' e v).getLsbD k = (entry m e v).getLsbD k := by
    intro e v k other
    rcases entries e v with same | cleared
    · rw [same]
    · have bit : pteA.getLsbD k = false := by
        rw [show pteA = BitVec.twoPow 32 5 by rfl, BitVec.getLsbD_twoPow]
        simp [Ne.symm other]
      rw [cleared, BitVec.getLsbD_and, BitVec.getLsbD_not, bit]
      by_cases inside : k < 32
      · simp [inside]
      · simp [BitVec.getLsbD_of_ge (entry m e v) k (by omega)]
  refine ⟨owned.of_view (fun d i _ _ => tables d i) ?_ ?_ ?_ ?_ ?_, addresses, flags⟩
  · intro d v _ _
    rw [mapped_iff, mapped_iff, flags _ _ _ (by decide), flags _ _ _ (by decide)]
  · intro d v _ _ _
    rcases entries d v with same | cleared
    · rw [same]
    · rw [cleared, frameOf_clear _ (by decide)]
  · intro d v _ _ zero
    rcases entries d v with same | cleared
    · rw [same, zero]
    · rw [cleared, zero]
      rfl
  · intro d v _ _ _
    exact flags d v 2 (by decide)
  · subst after
    rfl

/-- The slots of a queue can be used: those in use have a pointer, and an address for which the
process has a page table. -/
def Queue.Usable (m : Mem σ) (d : Nat) (queue : Queue PteAddr) : Prop :=
  ∀ i < clockSize, (queue.slot i).empty ≠ -1 → (queue.slot i).pte ≠ none ∧
    (queue.slot i).va < kernBase ∧ pteAt m d ((queue.slot i).va / pgSize) ≠ none

section Insertion

variable {m : Mem σ} {d v : Nat} (live : own d = .dir) (user : v < userPages)
  (isMapped : mapped (entry m d v) = true)

/-- What the loop of `cq_enset` keeps: labels, the places of entries, and the flags of the entry of
page `v` that decide whether the user may access it. -/
structure Untouched (image : Image) (own : Nat → Owner) (d v : Nat) (m store : Mem σ) : Prop where
  owned : Owned image store own
  addresses : ∀ w, pteAt store d w = pteAt m d w
  flags : ∀ k, k ≠ 5 → (entry store d v).getLsbD k = (entry m d v).getLsbD k

/-- A node whose eviction leaves page `v` alone. -/
def Elsewhere (m : Mem σ) (d v : Nat) (node : CqNode PteAddr) : Prop :=
  node.pte ≠ none ∧ node.va < kernBase ∧ pteAt m d (node.va / pgSize) ≠ none ∧
    node.va / pgSize ≠ v

theorem Untouched.clear {store : Mem σ} (untouched : Untouched image own d v m store)
    (pte : PteAddr) : Untouched image own d v m (store.set pte (store.get pte &&& ~~~pteA)) := by
  obtain ⟨owned, addresses, flags⟩ := untouched.owned.clearAny pte
  refine ⟨owned, ?_, ?_⟩
  · intro w
    rw [addresses, untouched.addresses]
  · intro k other
    rw [flags _ _ k other, untouched.flags k other]

include live user isMapped

/-- Evicting another page returns, and leaves the page as it is. -/
theorem Untouched.evict {store : Mem σ} (untouched : Untouched image own d v m store)
    {node : CqNode PteAddr} (elsewhere : Elsewhere m d v node) :
    ∃ evicted, (cqPolicy (entryOps d)).evict store node = .ok evicted ∧
      Untouched image own d v m evicted := by
  obtain ⟨-, low, table, other⟩ := elsewhere
  have small : node.va < 2 ^ 32 := by
    unfold kernBase at low
    omega
  have page : ∀ k < (1 : Int).toNat, (node.va / pgSize + k) % 2 ^ 20 = node.va / pgSize := by
    intro k inside
    simp only [Int.toNat_one, Nat.lt_one_iff] at inside
    unfold kernBase at low
    unfold pgSize
    omega
  simp only [cqPolicy, entryOps]
  rcases mencrypt_spec 1 untouched.owned live small with
    ⟨-, k, inside, absent⟩ | ⟨failed, -⟩ | ⟨final, passed, recoded, -, -, -, kept, -⟩
  · rw [page k inside, untouched.addresses] at absent
    exact absurd absent table
  · exact ⟨store, by rw [failed]; rfl, untouched⟩
  · refine ⟨final, by rw [passed]; rfl, recoded.owned, ?_, ?_⟩
    · intro w
      rw [recoded.addresses d w live, untouched.addresses]
    · have still : mapped (entry store d v) = true := by
        rw [mapped_iff, untouched.flags 0 (by decide), untouched.flags 10 (by decide), ← mapped_iff]
        exact isMapped
      have same := (kept d v live user still (by
        rintro ⟨-, k, inside, here⟩
        exact other (by rw [here, page k inside]))).1
      intro k notA
      rw [same, untouched.flags k notA]

/-- `cq_enset` of a page returns, and leaves the page as it is, if every slot in use for an address
on the page points to its entry. -/
theorem cqEnset_untouched {va : Nat} {pte : PteAddr} {queue : Queue PteAddr}
    (owned : Owned image m own) (usable : queue.Usable m d)
    (alone : ∀ i < clockSize, (queue.slot i).empty ≠ -1 → (queue.slot i).va / pgSize = v →
      (queue.slot i).pte = some pte) :
    ∃ after final, cqEnset (entryOps d) queue m va pte = .ok (after, final) ∧
      Untouched image own d v m final := by
  have start : Untouched image own d v m m := ⟨owned, fun _ => rfl, fun _ _ => rfl⟩
  by_cases held : queue.holds pte = true
  · rw [cqEnset, if_pos held]
    exact ⟨queue, m, rfl, start⟩
  have elsewhere : ∀ i < clockSize, (queue.slot i).empty ≠ -1 → Elsewhere m d v (queue.slot i) := by
    intro i inRange inUse
    obtain ⟨pointer, low, table⟩ := usable i inRange inUse
    refine ⟨pointer, low, table, ?_⟩
    intro here
    apply held
    rw [Queue.holds, List.any_eq_true]
    exact ⟨i, List.mem_range.mpr inRange, by simp [alone i inRange inUse here, inUse]⟩
  obtain ⟨after, final, _, _, inserted, -, -, -, outcome⟩ :=
    cqEnset_reuses va (fun node => node.empty ≠ -1 → Elsewhere m d v node) start elsewhere
      (fun node away inUse => (away inUse).1) (fun store node pte untouched _ _ => untouched.clear pte)
      (fun store node untouched away inUse => untouched.evict live user isMapped (away inUse)) held
  exact ⟨after, final, inserted, outcome.elim And.right And.right⟩

end Insertion

/-! ## The fault -/

section Fault

variable {s : Machine (Queue PteAddr)} {p : Nat}

/-- The end of the page fault case in user mode: a failure of `mdecrypt` marks the process killed,
and a killed process exits. -/
theorem pageFault_ends {va : Nat} {done : Bool} {m : Mem (Queue PteAddr)}
    (decrypted : mdecrypt clockOps (s.load p) (s.proc p).pgdir va = .ok (done, m)) :
    (p = s.initproc ∧ pageFault clockOps s p va true = .error (.panic "init exiting")) ∨
      ∃ s', pageFault clockOps s p va true = .ok s' ∧ s'.mem = m ∧
        (s'.proc p).killed = ((s.proc p).killed || !done) := by
  rw [pageFault, decrypted]
  simp only [ok_bind, Bool.not_true, Bool.and_false, Bool.false_eq_true, ↓reduceIte, Bool.and_true]
  split
  case isFalse => exact .inr ⟨_, rfl, rfl, by simp [Machine.setProc, Machine.save]⟩
  case isTrue =>
    rw [exit]
    split
    case isTrue first => exact .inl ⟨first, rfl⟩
    case isFalse =>
      refine .inr ⟨_, rfl, rfl, ?_⟩
      simp only [Machine.setProc, Machine.save, reparent, Machine.put_proc, Function.update_self]
      split <;> rfl

/-- A queue whose slots are all in use for the first page, with pointers to another page table. -/
def Queue.foreign : Queue PteAddr := ⟨fun i => ⟨0, 0, some ⟨450, i⟩⟩, 7⟩

end Fault

end MemoryEncryption
