import MemoryEncryption.Verif.Recoding

/-!
# Page faults

Specifications of `cq_enset` and `mdecrypt`. The nodes of a clock queue point at
page table entries, and an eviction acts on the address of a node; both are safe
when every pointer leads to the entry of a page that is still mapped in a live
address space and every address in use is a page of the caller. A fault keeps this,
changes no plaintext, and leaves at most the faulting page newly exposed.
-/

namespace MemoryEncryption

open ClockRing

variable {image : Image} {own : Nat → Owner}

/-- The pointer leads to the entry of a mapped user page of one of the given address spaces. -/
def LeadsTo {σ : Type} (m : Mem σ) (spaces : Nat → Prop) (pte : PteAddr) : Prop :=
  ∃ e v, spaces e ∧ v < userPages ∧ mapped (entry m e v) = true ∧ pteAt m e v = some pte

/-- A node whose pointer, if any, leads to a mapped page, and whose address, if in use, is one of a
mapped page of the address space `d`. -/
structure CqNode.Sound {σ : Type} (m : Mem σ) (spaces : Nat → Prop) (d : Nat)
    (node : CqNode PteAddr) : Prop where
  /-- Also the pointers of empty nodes lead somewhere. -/
  pointer : ∀ pte, node.pte = some pte → LeadsTo m spaces pte
  /-- A node in use has a pointer and an address. -/
  used : node.empty ≠ -1 → node.pte ≠ none ∧ node.va < kernBase ∧
    mapped (entry m d (node.va / pgSize)) = true

theorem LeadsTo.recoded {σ : Type} {m m' : Mem σ} {spaces : Nat → Prop} {pte : PteAddr}
    (leads : LeadsTo m spaces pte) (live : ∀ e, spaces e → own e = .dir)
    (change : Recoded image own m m') : LeadsTo m' spaces pte := by
  obtain ⟨e, v, inside, bound, isMapped, found⟩ := leads
  refine ⟨e, v, inside, bound, ?_, ?_⟩
  · rw [change.maps e v (live e inside) bound, isMapped]
  · rw [change.addresses e v (live e inside), found]

theorem page_of_va {va : Nat} (bound : va < kernBase) : va / pgSize < userPages := by
  unfold kernBase at bound
  unfold pgSize userPages
  omega

theorem CqNode.Sound.recoded {σ : Type} {m m' : Mem σ} {spaces : Nat → Prop} {d : Nat}
    {node : CqNode PteAddr} (sound : node.Sound m spaces d)
    (live : ∀ e, spaces e → own e = .dir) (dir : own d = .dir)
    (change : Recoded image own m m') : node.Sound m' spaces d where
  pointer pte same := (sound.pointer pte same).recoded live change
  used inUse := by
    obtain ⟨pointed, bound, isMapped⟩ := sound.used inUse
    refine ⟨pointed, bound, ?_⟩
    rw [change.maps d _ dir (page_of_va bound), isMapped]

/-- A mapped page's entry with other accessed and dirty bits. -/
theorem Owned.remark {σ : Type} {m : Mem σ} (owned : Owned image m own) {d v : Nat}
    {pte : PteAddr} (live : own d = .dir) (bound : v < userPages) (found : pteAt m d v = some pte)
    (isMapped : mapped (entry m d v) = true) {word : Word}
    (flags : word &&& ~~~codeFlags = entry m d v &&& ~~~codeFlags)
    (keepP : has word pteP = has (entry m d v) pteP)
    (keepE : has word pteE = has (entry m d v) pteE) :
    Recoded image own m (m.set pte word) ∧ Preserved own m (m.set pte word) ∧
      Hides own m (m.set pte word) := by
  obtain ⟨-, addresses, entries⟩ := owned.set_lookups live (page_lt bound) found word
  have after : mapped word = true := by
    rw [mapped_iff, ← has_pteP, ← has_pteE, keepP, keepE, has_pteP, has_pteE, ← mapped_iff]
    exact isMapped
  have keepU : has word pteU = has (entry m d v) pteU := by
    rw [has_pteU, has_pteU, user_of_codeFlags flags]
  refine ⟨⟨owned.setFlags live bound found isMapped after (frameOf_of_codeFlags flags),
    addresses, ?_, ?_⟩, ?_, ?_⟩
  · intro d' v' live' bound'
    rw [entries d' v' live' bound']
    split
    · rename_i here
      rw [flags, here.1, here.2]
    · rfl
  · intro d' v' live' bound'
    rw [entries d' v' live' (page_lt bound')]
    split
    · rename_i here
      rw [after, here.1, here.2, isMapped]
    · rfl
  · intro d' v' live' bound' one
    have label := owned.user d' v' live' bound' (mapped_of_exactlyOne one)
    obtain ⟨isTable, -⟩ := owned.pteAt_table live (page_lt bound) found
    have notTable : frameOf (entry m d' v') ≠ pte.frame := by
      intro same
      rw [same, isTable] at label
      simp at label
    have value := entries d' v' live' (page_lt bound')
    by_cases here : d' = d ∧ v' = v
    · obtain ⟨rfl, rfl⟩ := here
      rw [if_pos ⟨rfl, rfl⟩] at value
      refine ⟨by rwa [value, exactlyOne, keepP, keepE, ← exactlyOne], ?_⟩
      funext i
      simp [plaintext, value, keepE, frameOf_of_codeFlags flags, notTable, -has_pteE]
    · rw [if_neg here] at value
      refine ⟨by rw [value]; exact one, ?_⟩
      funext i
      simp [plaintext, value, notTable, -has_pteE]
  · intro d' v' live' bound' exposed
    rw [Exposed, entries d' v' live' bound'] at exposed
    split at exposed
    · rename_i here
      rw [keepP, keepE, keepU] at exposed
      rw [here.1, here.2]
      exact exposed
    · exact exposed

/-- Clearing the accessed bit of a mapped page's entry. -/
theorem clearA_spec {σ : Type} {m : Mem σ} (owned : Owned image m own) {spaces : Nat → Prop}
    (live : ∀ e, spaces e → own e = .dir) {pte : PteAddr} (leads : LeadsTo m spaces pte) :
    Recoded image own m (m.set pte (m.get pte &&& ~~~pteA)) ∧
      Preserved own m (m.set pte (m.get pte &&& ~~~pteA)) ∧
      Hides own m (m.set pte (m.get pte &&& ~~~pteA)) := by
  obtain ⟨e, v, inside, bound, isMapped, found⟩ := leads
  rw [get_pteAt found]
  refine owned.remark (live e inside) bound found isMapped (clear_codeFlags (by decide)) ?_ ?_
  · simp only [has_pteP, BitVec.getLsbD_and, BitVec.getLsbD_not]
    simp [pteA]
  · simp only [has_pteE, BitVec.getLsbD_and, BitVec.getLsbD_not]
    simp [pteA]

/-! ## `cq_enset` -/

/-- A change that keeps owners, plaintexts and the queue, and exposes nothing. -/
structure Harmless {σ : Type} (image : Image) (own : Nat → Owner) (m m' : Mem σ) : Prop where
  recoded : Recoded image own m m'
  preserved : Preserved own m m'
  hides : Hides own m m'
  queue : m'.queue = m.queue

theorem Harmless.refl {σ : Type} {m : Mem σ} (owned : Owned image m own) :
    Harmless image own m m :=
  ⟨.refl owned, .refl own m, fun _ _ _ _ exposed => exposed, rfl⟩

theorem Harmless.trans {σ : Type} {m m' m'' : Mem σ} (first : Harmless image own m m')
    (second : Harmless image own m' m'') : Harmless image own m m'' :=
  ⟨first.recoded.trans second.recoded, first.preserved.trans second.preserved,
    first.hides.trans second.hides, second.queue.trans first.queue⟩

theorem cqPolicy_idle {σ : Type} {store : Mem σ} {d : Nat} (pte : PteAddr) {other : CqNode PteAddr}
    (idle : (cqPolicy (entryOps d)).referenced store other = .ok false) :
    (cqPolicy (entryOps d)).referenced (store.set pte (store.get pte &&& ~~~pteA)) other =
      .ok false := by
  cases shape : other.pte with
  | none => simp [cqPolicy, entryOps, shape] at idle
  | some pte' =>
    simp only [cqPolicy, entryOps, shape, Except.ok.injEq] at idle ⊢
    by_cases same : pte'.frame = pte.frame ∧ pte'.index = pte.index
    · simp only [Mem.get, Mem.set_word, same, and_self, ↓reduceIte, has_pteA]
      simp [pteA]
    · simp only [Mem.get, Mem.set_word, same, ↓reduceIte]
      exact idle

/-- The loop of `cq_enset` returns if the nodes in use have pointers and can be evicted. It reuses
one node, and what clearing accessed bits keeps holds until then. -/
theorem cqEnset_reuses {σ : Type} {m : Mem σ} {d : Nat} (va : Nat) {pte : PteAddr}
    {queue : Queue PteAddr} {kept : Mem σ → Prop} (good : CqNode PteAddr → Prop)
    {gone : Mem σ → CqNode PteAddr → Prop}
    (start : kept m) (nodes : ∀ i < clockSize, good (queue.slot i))
    (pointed : ∀ node, good node → node.empty ≠ -1 → node.pte ≠ none)
    (clears : ∀ store node pte, kept store → good node → node.pte = some pte →
      kept (store.set pte (store.get pte &&& ~~~pteA)))
    (evicts : ∀ store node, kept store → good node → node.empty ≠ -1 →
      ∃ evicted, (cqPolicy (entryOps d)).evict store node = .ok evicted ∧ gone evicted node)
    (fresh : ¬ queue.holds pte = true) :
    ∃ after final node, ∃ rest : List (CqNode PteAddr),
      cqEnset (entryOps d) queue m va pte = .ok (after, final) ∧
      (0 ≤ after.hand ∧ after.hand < clockSize) ∧
      (∀ n, n ∈ queue.entries clockSize ↔ n = node ∨ n ∈ rest) ∧
      (∀ n, n ∈ after.entries clockSize ↔ n = cqFill va pte node ∨ n ∈ rest) ∧
      ((node.empty = -1 ∧ kept final) ∨ (node.empty ≠ -1 ∧ gone final node)) := by
  have responsive : (cqPolicy (entryOps d)).Responsive kept
      (fun node : CqNode PteAddr => good node ∧ node.empty ≠ -1) := by
    refine ⟨fun store node _ sound => ?_, fun store node holds sound _ => ?_,
      fun store node holds sound _ => ?_⟩
    · obtain ⟨pte, shape⟩ := Option.ne_none_iff_exists'.mp (pointed node sound.1 sound.2)
      exact ⟨has (store.get pte) pteA, by simp only [cqPolicy, entryOps, shape]⟩
    · obtain ⟨pte, shape⟩ := Option.ne_none_iff_exists'.mp (pointed node sound.1 sound.2)
      refine ⟨store.set pte (store.get pte &&& ~~~pteA), ?_, clears store node pte holds sound.1 shape,
        ?_, fun other idle => cqPolicy_idle pte idle⟩
      · simp only [cqPolicy, entryOps, shape]
      · simp only [cqPolicy, entryOps, shape, Mem.get, Mem.set_word, and_self, ↓reduceIte, has_pteA]
        simp [pteA]
    · obtain ⟨evicted, done, -⟩ := evicts store node holds sound.1 sound.2
      exact ⟨evicted, done⟩
  have goods : ∀ node ∈ queue.entries clockSize, good node := by
    intro node member
    obtain ⟨i, inRange, rfl⟩ := Dial.mem_entries.mp member
    exact nodes i inRange
  obtain ⟨after, final, swept⟩ : ∃ after final, sweep (cqPolicy (entryOps d)) clockSize
      (cqFill va pte) (clockSize + 1) queue m = .ok (after, final) :=
    sweep_finishes responsive (by decide) start fun node member occupied =>
      ⟨goods node member, by simpa [cqPolicy] using occupied⟩
  obtain ⟨node, rest, reached, before, later, holds, outcome⟩ := Sweeps.reuses kept good
    (fun store node cleared holds sound _ reset => by
      cases shape : node.pte with
      | none => simp [cqPolicy, entryOps, shape] at reset
      | some pte' =>
        simp only [cqPolicy, entryOps, shape, Except.ok.injEq] at reset
        rw [← reset]
        exact clears store node pte' holds sound shape)
    (sweep_sweeps (by decide) swept) goods start
  refine ⟨after, final, node, rest, by rw [cqEnset, if_neg fresh]; exact swept,
    sweep_hand (by decide) swept, before, later, ?_⟩
  rcases outcome with ⟨vacant, rfl⟩ | ⟨occupied, disposed⟩
  · exact .inl ⟨by simpa [cqPolicy] using vacant, holds⟩
  · have inUse : node.empty ≠ -1 := by simpa [cqPolicy] using occupied
    obtain ⟨evicted, done, left⟩ := evicts reached node holds
      (goods node ((before node).mpr (.inl rfl))) inUse
    rw [done] at disposed
    cases disposed
    exact .inr ⟨inUse, left⟩

section Enset

variable {σ : Type} {m : Mem σ} {spaces : Nat → Prop} {d : Nat}

theorem clear_harmless (live : ∀ e, spaces e → own e = .dir) {store : Mem σ} {node : CqNode PteAddr}
    {pte : PteAddr} (harmless : Harmless image own m store) (sound : node.Sound m spaces d)
    (shape : node.pte = some pte) :
    Harmless image own m (store.set pte (store.get pte &&& ~~~pteA)) := by
  have leads := (sound.pointer pte shape).recoded live harmless.recoded
  obtain ⟨recoded, preserved, hides⟩ := clearA_spec harmless.recoded.owned live leads
  exact harmless.trans ⟨recoded, preserved, hides, rfl⟩

theorem evict_harmless (dir : own d = .dir) {store : Mem σ} {node : CqNode PteAddr}
    (harmless : Harmless image own m store) (sound : node.Sound m spaces d)
    (inUse : node.empty ≠ -1) :
    ∃ evicted, (cqPolicy (entryOps d)).evict store node = .ok evicted ∧
      Harmless image own m evicted ∧ ¬ Exposed evicted d (node.va / pgSize) := by
  obtain ⟨-, bound, isMapped⟩ := sound.used inUse
  have still : mapped (entry store d (node.va / pgSize)) = true := by
    rw [harmless.recoded.maps d _ dir (page_of_va bound), isMapped]
  obtain ⟨done, evicted, encrypted, recoded, preserved, queue, sealing, outcome⟩ :=
    mencrypt_one harmless.recoded.owned dir bound still
  refine ⟨evicted, ?_, harmless.trans ⟨recoded, preserved, sealing.hides, queue⟩, ?_⟩
  · simp only [cqPolicy, entryOps, encrypted, Outcome.ok_bind]
  · rintro ⟨-, open', user⟩
    rcases outcome with sealedPage | closed
    · rw [open'] at sealedPage
      simp at sealedPage
    · rw [user] at closed
      simp at closed

end Enset

theorem cqFill_used (va : Nat) (pte : PteAddr) (node : CqNode PteAddr) :
    (cqFill va pte node).empty ≠ -1 := by
  unfold cqFill
  split
  · simp
  · assumption

/-- A queue whose hand is in range and whose nodes are sound. -/
structure Queue.Sound {σ : Type} (m : Mem σ) (spaces : Nat → Prop) (d : Nat)
    (queue : Queue PteAddr) : Prop where
  /-- The hand is on a node, or before the first one. -/
  hand : -1 ≤ queue.hand ∧ queue.hand < clockSize
  /-- Every node is sound. -/
  slots : ∀ i < clockSize, (queue.slot i).Sound m spaces d

theorem Queue.Sound.recoded {σ : Type} {m m' : Mem σ} {spaces : Nat → Prop} {d : Nat}
    {queue : Queue PteAddr} (sound : queue.Sound m spaces d)
    (live : ∀ e, spaces e → own e = .dir) (dir : own d = .dir)
    (change : Recoded image own m m') : queue.Sound m' spaces d :=
  ⟨sound.hand, fun i bound => (sound.slots i bound).recoded live dir change⟩

/-- What an insertion does to the nodes of a queue: one node holds the entry, every other node was
there before, and a node in use that is gone has had its page hidden. -/
structure Inserted {σ : Type} (m : Mem σ) (d va : Nat) (pte : PteAddr)
    (before after : Queue PteAddr) : Prop where
  present : ∃ j < clockSize, (after.slot j).empty ≠ -1 ∧ (after.slot j).pte = some pte
  origin : ∀ i < clockSize, (∃ j < clockSize, after.slot i = before.slot j) ∨
    ((after.slot i).va = va ∧ (after.slot i).pte = some pte ∧ (after.slot i).empty ≠ -1)
  fate : ∀ i < clockSize, (before.slot i).empty ≠ -1 →
    (∃ j < clockSize, after.slot j = before.slot i) ∨
      ¬ Exposed m d ((before.slot i).va / pgSize)

/-- `cq_enset` always returns. It keeps plaintexts, exposes nothing, and inserts the page. -/
theorem cqEnset_spec {σ : Type} {m : Mem σ} {spaces : Nat → Prop} {d va : Nat} {pte : PteAddr}
    {queue : Queue PteAddr} (owned : Owned image m own) (live : ∀ e, spaces e → own e = .dir)
    (inside : spaces d) (sound : queue.Sound m spaces d) (bound : va < kernBase)
    (found : pteAt m d (va / pgSize) = some pte)
    (isMapped : mapped (entry m d (va / pgSize)) = true) :
    ∃ after final, cqEnset (entryOps d) queue m va pte = .ok (after, final) ∧
      Harmless image own m final ∧ after.Sound final spaces d ∧
      Inserted final d va pte queue after := by
  have dir := live d inside
  by_cases held : queue.holds pte = true
  · rw [cqEnset, if_pos held]
    refine ⟨queue, m, rfl, .refl owned, sound, ?_, fun i inRange => .inl ⟨i, inRange, rfl⟩,
      fun i inRange _ => .inl ⟨i, inRange, rfl⟩⟩
    simp only [Queue.holds, List.any_eq_true, List.mem_range, Bool.and_eq_true, beq_iff_eq,
      bne_iff_ne] at held
    obtain ⟨j, inRange, pointer, inUse⟩ := held
    exact ⟨j, inRange, inUse, pointer⟩
  obtain ⟨after, final, node, rest, inserted, ⟨lower, upper⟩, before, later, outcome⟩ :=
    cqEnset_reuses va (·.Sound m spaces d) (Harmless.refl owned) sound.slots
      (fun node sound inUse => (sound.used inUse).1)
      (fun store node pte harmless sound shape => clear_harmless live harmless sound shape)
      (fun store node harmless sound inUse => evict_harmless dir harmless sound inUse) held
  have result : Harmless image own m final ∧
      (node.empty ≠ -1 → ¬ Exposed final d (node.va / pgSize)) := by
    rcases outcome with ⟨vacant, harmless⟩ | ⟨-, harmless, hidden⟩
    · exact ⟨harmless, fun inUse => absurd vacant inUse⟩
    · exact ⟨harmless, fun _ => hidden⟩
  obtain ⟨harmless, hidden⟩ := result
  have new : (cqFill va pte node).Sound m spaces d :=
    ⟨fun pte' same => ⟨d, _, inside, page_of_va bound, isMapped, by
      rw [found]
      exact same⟩, fun _ => ⟨by simp [cqFill], bound, isMapped⟩⟩
  have nodes : ∀ i < clockSize, after.slot i = cqFill va pte node ∨
      ∃ j < clockSize, after.slot i = queue.slot j := by
    intro i inRange
    rcases (later _).mp (Dial.mem_entries.mpr ⟨i, inRange, rfl⟩) with same | kept
    · exact .inl same
    · obtain ⟨j, inRange', same⟩ := Dial.mem_entries.mp ((before _).mpr (.inr kept))
      exact .inr ⟨j, inRange', same.symm⟩
  refine ⟨after, final, inserted, harmless, ⟨⟨by omega, upper⟩, fun i inRange => ?_⟩, ?_, ?_, ?_⟩
  · refine CqNode.Sound.recoded ?_ live dir harmless.recoded
    rcases nodes i inRange with same | ⟨j, inRange', same⟩
    · rw [same]
      exact new
    · rw [same]
      exact sound.slots j inRange'
  · obtain ⟨j, inRange, same⟩ := Dial.mem_entries.mp ((later _).mpr (.inl rfl))
    exact ⟨j, inRange, by rw [same]; exact cqFill_used va pte node, by rw [same]; rfl⟩
  · intro i inRange
    refine (nodes i inRange).symm.imp_right fun same => ?_
    rw [same]
    exact ⟨rfl, rfl, cqFill_used va pte node⟩
  · intro i inRange inUse
    rcases (before _).mp (Dial.mem_entries.mpr ⟨i, inRange, rfl⟩) with same | kept
    · right
      rw [same] at inUse ⊢
      exact hidden inUse
    · exact .inl (Dial.mem_entries.mp ((later _).mpr (.inr kept)))

/-! ## `mdecrypt` -/

theorem Owned.of_queue {σ : Type} {m : Mem σ} (owned : Owned image m own) (queue : σ) :
    Owned image { m with queue := queue } own :=
  owned.of_structural (fun _ _ _ => rfl) rfl

theorem Recoded.of_queue {σ : Type} {m m' : Mem σ} (change : Recoded image own m m') (queue : σ) :
    Recoded image own m { m' with queue := queue } :=
  ⟨change.owned.of_queue queue, change.addresses, change.entries, change.maps⟩

theorem Queue.Sound.of_queue {σ : Type} {m : Mem σ} {spaces : Nat → Prop} {d : Nat}
    {queue : Queue PteAddr} (sound : queue.Sound m spaces d) (other : σ) :
    queue.Sound { m with queue := other } spaces d :=
  ⟨sound.hand, fun i bound => ⟨(sound.slots i bound).pointer, (sound.slots i bound).used⟩⟩

/-- What the decryption of page `v` of address space `d` leaves. -/
structure Opened {σ : Type} (image : Image) (own : Nat → Owner) (d v : Nat) (m m' : Mem σ) :
    Prop where
  recoded : Recoded image own m m'
  queue : m'.queue = m.queue
  preserved : has (entry m d v) pteE = true → Preserved own m m'
  flags : has (entry m' d v) pteP = true ∧ has (entry m' d v) pteE = false
  others : ∀ d' v', own d' = .dir → v' < 2 ^ 20 → ¬ (d' = d ∧ v' = v) →
    entry m' d' v' = entry m d' v'

theorem Opened.keepsOne {σ : Type} {m m' : Mem σ} {d v : Nat} (opened : Opened image own d v m m') :
    KeepsOne own m m' := by
  intro d' v' live' user one
  by_cases here : d' = d ∧ v' = v
  · obtain ⟨rfl, rfl⟩ := here
    rw [exactlyOne, opened.flags.1, opened.flags.2]
    rfl
  · rw [opened.others d' v' live' (page_lt user) here]
    exact one

theorem decryptPage_spec {σ : Type} {m : Mem σ} (owned : Owned image m own) {d v : Nat}
    {pte : PteAddr} (live : own d = .dir) (bound : v < userPages)
    (found : pteAt m d v = some pte) (isMapped : mapped (entry m d v) = true) :
    Opened image own d v m (flipPage (m.set pte ((m.get pte &&& ~~~pteE) ||| pteP)) pte) := by
  have value := get_pteAt found
  have label := owned.user d v live bound isMapped
  obtain ⟨isTable, -⟩ := owned.pteAt_table live (page_lt bound) found
  have distinct : pte.frame ≠ frameOf (m.get pte) := by
    intro same
    rw [same, value] at isTable
    simp [label] at isTable
  have frames : frameOf ((m.get pte &&& ~~~pteE) ||| pteP) = frameOf (m.get pte) := by
    rw [frameOf_or _ (by decide), frameOf_clear _ (by decide)]
  have flips := set_flipPage_flips m frames distinct
  generalize m.marks.headD (pteA ||| pteD) = mark at flips
  rw [value] at flips ⊢
  change m.Flips (frameOf (entry m d v)) pte (openedWord (entry m d v) mark) _ at flips
  obtain ⟨openedE, openedP⟩ := openedWord_flags (entry m d v) mark
  have one : exactlyOne (openedWord (entry m d v) mark) = true := by
    simp [exactlyOne, openedE, openedP, -has_pteE, -has_pteP]
  have flags := openedWord_codeFlags (entry m d v) mark
  obtain ⟨recoded, entries⟩ := owned.recode live bound found isMapped (mapped_of_exactlyOne one)
    flags flips
  refine ⟨recoded, rfl, fun encrypted => ?_, ?_,
    fun d' v' live' bound' other => by rw [entries d' v' live' bound', if_neg other]⟩
  · exact owned.recode_preserved live bound found isMapped one flags flips
      (by rw [openedE, encrypted]; rfl)
  · rw [entries d v live (page_lt bound), if_pos ⟨rfl, rfl⟩]
    exact ⟨openedP, openedE⟩

/-- `mdecrypt` fails and changes nothing at an address without a page, and otherwise decrypts the
page and calls `cq_enset`. -/
theorem mdecrypt_cases {σ : Type} {m : Mem σ} (ops : ClockOps σ) {d : Nat} (va : Nat)
    (owned : Owned image m own) (dir : own d = .dir) :
    (mdecrypt ops m d va = .ok (false, m) ∧
        (kernBase ≤ va ∨ mapped (entry m d (va / pgSize)) = false)) ∨
      ∃ m₁ pte, mdecrypt ops m d va = (do .ok (true, ← ops.enset m₁ d va pte)) ∧ va < kernBase ∧
        mapped (entry m d (va / pgSize)) = true ∧ pteAt m d (va / pgSize) = some pte ∧
        Opened image own d (va / pgSize) m m₁ := by
  rw [mdecrypt]
  by_cases high : kernBase ≤ va
  · rw [if_pos high]
    exact .inl ⟨rfl, .inl high⟩
  · rw [if_neg high]
    have bound : va < kernBase := by omega
    have small := lt_word bound
    have user := page_of_va bound
    rw [walkpgdir_lookup m d small]
    cases isMapped : mapped (entry m d (va / pgSize)) with
    | false =>
      left
      have zero := owned.zero d _ dir user isMapped
      cases found : pteAt m d (va / pgSize) with
      | none => exact ⟨rfl, .inr rfl⟩
      | some pte =>
        have value : m.get pte = 0 := by
          rw [← zero, entry, found]
          rfl
        simp only [value, ↓reduceIte]
        exact ⟨trivial, .inr trivial⟩
    | true =>
      right
      obtain ⟨pte, found, value⟩ := exists_pteAt isMapped
      have nonzero : m.get pte ≠ 0 := by
        intro zero
        rw [← value, zero] at isMapped
        simp at isMapped
      have opened := decryptPage_spec owned dir user found isMapped
      refine ⟨_, pte, ?_, bound, rfl, found, opened⟩
      simp only [found, nonzero, ↓reduceIte]
      rw [walkpgdir_lookup _ d small, opened.recoded.addresses d _ dir, found]

/-- What a page fault at `va` in address space `d` that is served leaves: the page is open and in the
queue. -/
structure Served {σ : Type} (own : Nat → Owner) (d va : Nat) (m m' : Mem σ)
    (queue queue' : Queue PteAddr) : Prop where
  bound : va < kernBase
  isMapped : mapped (entry m d (va / pgSize)) = true
  preserved : has (entry m d (va / pgSize)) pteE = true → Preserved own m m'
  keepsOne : KeepsOne own m m'
  exposed : ∀ e v, own e = .dir → v < 2 ^ 20 → Exposed m' e v →
    Exposed m e v ∨ (e = d ∧ v = va / pgSize)
  nodes : ∃ pte, pteAt m d (va / pgSize) = some pte ∧ Inserted m' d va pte queue queue'

/-- `mdecrypt`: it fails and changes nothing at an address without a page, and otherwise decrypts
the page and puts it into the queue. -/
theorem mdecrypt_spec {m : Mem (Queue PteAddr)} {spaces : Nat → Prop} {d : Nat} (va : Nat)
    (owned : Owned image m own) (live : ∀ e, spaces e → own e = .dir) (inside : spaces d)
    (sound : m.queue.Sound m spaces d) :
    (mdecrypt clockOps m d va = .ok (false, m) ∧
        (kernBase ≤ va ∨ mapped (entry m d (va / pgSize)) = false)) ∨
      ∃ final, mdecrypt clockOps m d va = .ok (true, final) ∧ Recoded image own m final ∧
        final.queue.Sound final spaces d ∧ Served own d va m final m.queue final.queue := by
  have dir := live d inside
  rcases mdecrypt_cases clockOps va owned dir with failed | ⟨m₁, pte, step, bound, isMapped, found,
    opened⟩
  · exact .inl failed
  have recoded := opened.recoded
  have user := page_of_va bound
  obtain ⟨after, m₂, inserted, harmless, sound₂, nodes⟩ := cqEnset_spec recoded.owned live inside
    (sound.recoded live dir recoded) bound (by rw [recoded.addresses d _ dir, found])
    (by rw [recoded.maps d _ dir user, isMapped])
  have ensets : clockOps.enset m₁ d va pte = .ok { m₂ with queue := after } := by
    simp only [clockOps, opened.queue, inserted, Outcome.ok_bind]
  refine .inr ⟨_, by rw [step, ensets]; rfl, (recoded.trans harmless.recoded).of_queue after,
    sound₂.of_queue after, bound, isMapped,
    fun encrypted => (opened.preserved encrypted).trans harmless.preserved,
    fun d' v' live' user' one => harmless.preserved.keepsOne d' v' live' user'
      (opened.keepsOne d' v' live' user' one), ?_, pte, found, { nodes with }⟩
  intro d' v' live' bound' exposed
  have before : Exposed m₁ d' v' := harmless.hides d' v' live' bound' exposed
  by_cases here : d' = d ∧ v' = va / pgSize
  · exact .inr here
  · rw [Exposed, opened.others d' v' live' bound' here] at before
    exact .inl before

end MemoryEncryption
