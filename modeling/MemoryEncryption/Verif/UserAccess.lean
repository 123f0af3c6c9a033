import MemoryEncryption.Library.BitFields
import MemoryEncryption.Kernel.Inspect
import MemoryEncryption.Verif.Bytes
import MemoryEncryption.Verif.Faults

/-!
# Accesses of the kernel to user memory

A write of the kernel to a buffer of the process may fault, decrypt a page and encrypt
another. Whatever it does, the plaintext of the buffer changes in the written bits
only, and the entries change in their code flags only. This holds while the queue of
the process is sound, or while no page of the buffer is encrypted.
-/

namespace MemoryEncryption

open Outcome

variable {image : Image} {own : Nat → Owner} {spaces buffer : Nat → Prop} {d : Nat}
  {m m' m'' : Mem (Queue PteAddr)} {img : Nat → BitVec 8}

/-! ## The state of a buffer -/

/-- A memory in which the kernel can get at the pages of a buffer, whose plaintext is given. -/
structure Serving (image : Image) (own : Nat → Owner) (spaces : Nat → Prop) (d : Nat)
    (buffer : Nat → Prop) (m : Mem (Queue PteAddr)) (img : Nat → BitVec 8) : Prop where
  owned : Owned image m own
  live : ∀ e, spaces e → own e = .dir
  inside : spaces d
  ready : m.queue.Sound m spaces d ∨ ∀ v, buffer v → has (entry m d v) pteP = true
  /-- Every page of the buffer is a user page and present or encrypted. -/
  coded : ∀ v, buffer v → v < userPages ∧ exactlyOne (entry m d v) = true
  shows : ∀ a, buffer (a / pgSize) → plainByte m d a = img a

/-- Pages of an address space are present or encrypted as before, and the queue is kept. -/
structure Still (d : Nat) (m m' : Mem (Queue PteAddr)) : Prop where
  flags : ∀ v < 2 ^ 20, has (entry m' d v) pteP = has (entry m d v) pteP ∧
    has (entry m' d v) pteE = has (entry m d v) pteE
  queue : m'.queue = m.queue

/-- What the service of a buffer may change. -/
structure Serves (image : Image) (own : Nat → Owner) (d : Nat) (buffer : Nat → Prop)
    (m m' : Mem (Queue PteAddr)) : Prop where
  /-- Only code flags change. -/
  recoded : Recoded image own m m'
  /-- Only marks change if the whole buffer is present. -/
  still : (∀ v, buffer v → has (entry m d v) pteP = true) → Still d m m'

theorem Serves.refl (owned : Owned image m own) : Serves image own d buffer m m :=
  ⟨.refl owned, fun _ => ⟨fun _ _ => ⟨rfl, rfl⟩, rfl⟩⟩

theorem Serves.trans (small : ∀ v, buffer v → v < 2 ^ 20) (first : Serves image own d buffer m m')
    (second : Serves image own d buffer m' m'') : Serves image own d buffer m m'' := by
  refine ⟨first.recoded.trans second.recoded, fun present => ?_⟩
  have before := first.still present
  have after := second.still fun v part => by
    rw [(before.flags v (small v part)).1, present v part]
  refine ⟨fun v bound => ?_, after.queue.trans before.queue⟩
  rw [(after.flags v bound).1, (after.flags v bound).2]
  exact before.flags v bound

theorem Serving.small (serving : Serving image own spaces d buffer m img) (v : Nat)
    (part : buffer v) : v < 2 ^ 20 :=
  page_lt (serving.coded v part).1

/-- A buffer can still be served after a change of code flags that keeps plaintexts. -/
theorem Serving.recoded (serving : Serving image own spaces d buffer m img)
    (change : Recoded image own m m') (preserved : Preserved own m m')
    (ready : m'.queue.Sound m' spaces d ∨ ∀ v, buffer v → has (entry m' d v) pteP = true) :
    Serving image own spaces d buffer m' img where
  owned := change.owned
  live := serving.live
  inside := serving.inside
  ready := ready
  coded v part := by
    obtain ⟨user, one⟩ := serving.coded v part
    exact ⟨user, (preserved d v (serving.live d serving.inside) user one).1⟩
  shows a part := by
    obtain ⟨user, one⟩ := serving.coded _ part
    rw [plainByte_congr (preserved d _ (serving.live d serving.inside) user one).2]
    exact serving.shows a part

/-! ## One access -/

theorem Recoded.of_marks {σ : Type} {m m' : Mem σ} (change : Recoded image own m m')
    (marks : List Word) : Recoded image own m { m' with marks := marks } :=
  ⟨change.owned.of_structural (fun _ _ _ => rfl) rfl, change.addresses, change.entries, change.maps⟩

theorem marked_flags (word mark : Word) :
    (word ||| (mark &&& (pteA ||| pteD))) &&& ~~~codeFlags = word &&& ~~~codeFlags ∧
      has (word ||| (mark &&& (pteA ||| pteD))) pteP = has word pteP ∧
      has (word ||| (mark &&& (pteA ||| pteD))) pteE = has word pteE := by
  refine ⟨or_codeFlags (mark_codeFlags mark), ?_, ?_⟩
  · simp only [has_pteP, BitVec.getLsbD_and, BitVec.getLsbD_or]
    simp [pteA, pteD]
  · simp only [has_pteE, BitVec.getLsbD_and, BitVec.getLsbD_or]
    simp [pteA, pteD]

variable {va : Nat}

/-- An access to a page that is present marks its entry. -/
theorem touch_marks (owned : Owned image m own) (dir : own d = .dir) (tries : Nat)
    (bound : va < kernBase) (present : has (entry m d (va / pgSize)) pteP = true) :
    ∃ m', touch clockOps d va (tries + 1) m = .ok (frameOf (entry m' d (va / pgSize)), m') ∧
      Recoded image own m m' ∧ Preserved own m m' ∧ Hides own m m' ∧ Still d m m' := by
  have user := page_of_va bound
  have isMapped : mapped (entry m d (va / pgSize)) = true := by
    rw [mapped_iff, ← has_pteP, present, Bool.true_or]
  have short := lt_word bound
  obtain ⟨pte, found, value⟩ := exists_pteAt isMapped
  have looked : presentEntry m d va = some pte := by
    rw [presentEntry, walkpgdir_lookup m d short, found, Option.filter_some, value, present]
    rfl
  obtain ⟨others, keepP, keepE⟩ :=
    marked_flags (entry m d (va / pgSize)) (m.marks.headD (pteA ||| pteD))
  obtain ⟨recoded, preserved, hides⟩ := owned.remark dir user found isMapped others keepP keepE
  have flags : ∀ v < 2 ^ 20,
      has (entry (m.set pte (entry m d (va / pgSize) |||
        (m.marks.headD (pteA ||| pteD) &&& (pteA ||| pteD)))) d v) pteP = has (entry m d v) pteP ∧
      has (entry (m.set pte (entry m d (va / pgSize) |||
        (m.marks.headD (pteA ||| pteD) &&& (pteA ||| pteD)))) d v) pteE =
          has (entry m d v) pteE := by
    intro v small
    rw [(owned.set_lookups dir (page_lt user) found _).2.2 d v dir small]
    by_cases here : v = va / pgSize
    · rw [if_pos ⟨rfl, here⟩, here]
      exact ⟨keepP, keepE⟩
    · rw [if_neg fun both => here both.2]
      exact ⟨rfl, rfl⟩
  refine ⟨_, ?_, recoded.of_marks m.marks.tail, preserved, hides, flags, rfl⟩
  rw [touch, looked]
  simp only [value]
  congr 2
  exact (frameOf_of_codeFlags (recoded.entries d _ dir (page_lt user))).symm

theorem touch_absent {tries : Nat} (bound : va < 2 ^ 32)
    (absent : has (entry m d (va / pgSize)) pteP = false) :
    touch clockOps d va (tries + 1) m = (do
      let (done, m) ← mdecrypt clockOps m d va
      if done then touch clockOps d va tries m else .error (.panic "trap")) := by
  have looked : presentEntry m d va = none := by
    rw [presentEntry, walkpgdir_lookup m d bound]
    cases found : pteAt m d (va / pgSize) with
    | none => rfl
    | some pte =>
      rw [entry, found] at absent
      rw [Option.filter_some, if_neg (by rw [show has (m.get pte) pteP = false from absent]; decide)]
  rw [touch, looked]

theorem touch_fault {tries : Nat} (bound : va < 2 ^ 32)
    (absent : has (entry m d (va / pgSize)) pteP = false)
    (served : mdecrypt clockOps m d va = .ok (true, m')) :
    touch clockOps d va (tries + 1) m = touch clockOps d va tries m' := by
  rw [touch_absent bound absent, served, ok_bind]
  rfl

/-- An access to a page of the buffer that is present. -/
theorem Serving.touch_present (serving : Serving image own spaces d buffer m img)
    (part : buffer (va / pgSize)) (tries : Nat)
    (present : has (entry m d (va / pgSize)) pteP = true) :
    ∃ m', touch clockOps d va (tries + 1) m = .ok (frameOf (entry m' d (va / pgSize)), m') ∧
      Serves image own d buffer m m' ∧ Serving image own spaces d buffer m' img ∧
      has (entry m' d (va / pgSize)) pteP = true := by
  have dir := serving.live d serving.inside
  have user := (serving.coded _ part).1
  have bound : va < kernBase := by
    unfold userPages pgSize at user
    unfold kernBase
    omega
  obtain ⟨m', touched, recoded, preserved, -, still⟩ :=
    touch_marks serving.owned dir tries bound present
  refine ⟨m', touched, ⟨recoded, fun _ => still⟩, serving.recoded recoded preserved ?_, ?_⟩
  · refine serving.ready.imp (fun sound => ?_) fun all v inBuffer => ?_
    · rw [still.queue]
      exact sound.recoded serving.live dir recoded
    · exact (still.flags v (serving.small v inBuffer)).1.trans (all v inBuffer)
  · exact (still.flags _ (page_lt user)).1.trans present

theorem mdecrypt_held (owned : Owned image m own) (dir : own d = .dir) {pte : PteAddr}
    (bound : va < kernBase) (isMapped : mapped (entry m d (va / pgSize)) = true)
    (found : pteAt m d (va / pgSize) = some pte) (held : m.queue.holds pte = true) :
    ∃ m', mdecrypt clockOps m d va = .ok (true, m') ∧ Opened image own d (va / pgSize) m m' := by
  rcases mdecrypt_cases clockOps va owned dir with ⟨-, high | missing⟩ | ⟨m₁, pte', step, -, -, found',
    opened⟩
  · omega
  · rw [isMapped] at missing
    contradiction
  · obtain rfl : pte = pte' := Option.some.inj (found.symm.trans found')
    refine ⟨m₁, ?_, opened⟩
    rw [← opened.queue] at held
    rw [step]
    simp only [clockOps, cqEnset, held, ↓reduceIte, ok_bind]

/-- A buffer can be served after a page fault on one of its pages. -/
theorem Serving.mdecrypt (serving : Serving image own spaces d buffer m img)
    (part : buffer (va / pgSize)) (absent : has (entry m d (va / pgSize)) pteP = false) :
    ∃ m', mdecrypt clockOps m d va = .ok (true, m') ∧ Serves image own d buffer m m' ∧
      Serving image own spaces d buffer m' img ∧
      ∃ pte, pteAt m' d (va / pgSize) = some pte ∧ m'.queue.holds pte = true := by
  have dir := serving.live d serving.inside
  obtain ⟨user, one⟩ := serving.coded _ part
  have encrypted : has (entry m d (va / pgSize)) pteE = true := by
    rw [exactlyOne, absent] at one
    simpa using one
  have faults : ¬ ∀ v, buffer v → has (entry m d v) pteP = true := by
    intro all
    rw [all _ part] at absent
    contradiction
  have sound := serving.ready.resolve_right faults
  rcases mdecrypt_spec va serving.owned serving.live serving.inside sound with
    ⟨-, high | missing⟩ | ⟨m₁, step, recoded, sound₁, served⟩
  · unfold userPages pgSize at user
    unfold kernBase at high
    omega
  · rw [mapped_of_exactlyOne one] at missing
    contradiction
  · obtain ⟨pte, found, inserted⟩ := served.nodes
    refine ⟨m₁, step, ⟨recoded, fun all => absurd all faults⟩,
      serving.recoded recoded (served.preserved encrypted) (.inl sound₁), pte, ?_, ?_⟩
    · rw [recoded.addresses d _ dir, found]
    · obtain ⟨j, inRange, inUse, pointer⟩ := inserted.present
      simp only [Queue.holds, List.any_eq_true, List.mem_range, Bool.and_eq_true, beq_iff_eq,
        bne_iff_ne]
      exact ⟨j, inRange, pointer, inUse⟩

/-- An access to a page of the buffer gets through, and the page is then open. -/
theorem Serving.touch (serving : Serving image own spaces d buffer m img)
    (part : buffer (va / pgSize)) :
    ∃ m', touch clockOps d va accesses m = .ok (frameOf (entry m' d (va / pgSize)), m') ∧
      Serves image own d buffer m m' ∧ Serving image own spaces d buffer m' img ∧
      has (entry m' d (va / pgSize)) pteP = true := by
  have dir := serving.live d serving.inside
  have user := (serving.coded _ part).1
  have small := serving.small
  have bound : va < kernBase := by
    unfold userPages pgSize at user
    unfold kernBase
    omega
  have short := lt_word bound
  by_cases present : has (entry m d (va / pgSize)) pteP = true
  · exact serving.touch_present part 2 present
  rw [Bool.not_eq_true] at present
  obtain ⟨m₁, served, serves₁, serving₁, pte, found, held⟩ := serving.mdecrypt part present
  rw [accesses, touch_fault short present served]
  by_cases present₁ : has (entry m₁ d (va / pgSize)) pteP = true
  · obtain ⟨m₂, touched, serves₂, done⟩ := serving₁.touch_present part 1 present₁
    exact ⟨m₂, touched, serves₁.trans small serves₂, done⟩
  rw [Bool.not_eq_true] at present₁
  -- The page was put into the queue and encrypted again in its place. Now the queue holds it.
  have one := (serving₁.coded _ part).2
  obtain ⟨m₂, served₂, opened⟩ := mdecrypt_held serving₁.owned dir bound (mapped_of_exactlyOne one)
    found held
  have encrypted : has (entry m₁ d (va / pgSize)) pteE = true := by
    rw [exactlyOne, present₁] at one
    simpa using one
  have faults : ¬ ∀ v, buffer v → has (entry m₁ d v) pteP = true := by
    intro all
    rw [all _ part] at present₁
    contradiction
  have serving₂ := serving₁.recoded opened.recoded (opened.preserved encrypted) <| .inl <| by
    rw [opened.queue]
    exact (serving₁.ready.resolve_right faults).recoded serving.live dir opened.recoded
  have serves₂ : Serves image own d buffer m₁ m₂ := ⟨opened.recoded, fun all => absurd all faults⟩
  rw [touch_fault short present₁ served₂]
  obtain ⟨m₃, touched, serves₃, done⟩ := serving₂.touch_present part 0 opened.flags.1
  exact ⟨m₃, touched, (serves₁.trans small serves₂).trans small serves₃, done⟩

/-! ## Stores -/

/-- Storing bytes in an open page of the buffer writes them over its plaintext. -/
theorem Serving.store (serving : Serving image own spaces d buffer m img) {v o : Nat}
    (part : buffer v) (present : has (entry m d v) pteP = true) (bytes : List (BitVec 8))
    (fits : o + bytes.length ≤ pgSize) :
    Serves image own d buffer m (m.setBytes (frameOf (entry m d v)) o bytes) ∧
      Serving image own spaces d buffer (m.setBytes (frameOf (entry m d v)) o bytes)
        (overlay img (v * pgSize + o) bytes) := by
  have dir := serving.live d serving.inside
  obtain ⟨user, one⟩ := serving.coded v part
  have isMapped := mapped_of_exactlyOne one
  obtain ⟨recoded, entries⟩ := serving.owned.setBytes_recoded dir user isMapped o bytes
  have queue : (m.setBytes (frameOf (entry m d v)) o bytes).queue = m.queue :=
    (m.setBytes_rest _ _ _).2
  have plain : has (entry m d v) pteE = false := by
    rw [exactlyOne, present] at one
    simpa using one
  refine ⟨⟨recoded, fun _ => ⟨fun w bound => ?_, queue⟩⟩, recoded.owned, serving.live,
    serving.inside, ?_, fun w inBuffer => ?_, fun a inBuffer => ?_⟩
  · rw [entries d w dir bound]
    exact ⟨rfl, rfl⟩
  · refine serving.ready.imp (fun sound => ?_) fun all w inBuffer => ?_
    · rw [queue]
      exact sound.recoded serving.live dir recoded
    · rw [entries d w dir (serving.small w inBuffer)]
      exact all w inBuffer
  · rw [entries d w dir (serving.small w inBuffer)]
    exact serving.coded w inBuffer
  · obtain ⟨user', one'⟩ := serving.coded _ inBuffer
    have written := (serving.owned.spaceByte_setBytes dir user isMapped bytes fits).2 a user'
      (mapped_of_exactlyOne one')
    by_cases here : a / pgSize = v
    · have openBefore : plainByte m d a = spaceByte m d a := plainByte_open (by rw [here, plain])
      rw [plainByte_open (by rw [entries d _ dir (page_lt user'), here, plain]), written]
      exact overlay_congr (openBefore.symm.trans (serving.shows a inBuffer))
    · have apart : a < v * pgSize + o ∨ v * pgSize + o + bytes.length ≤ a := by
        unfold pgSize at *
        omega
      have other : frameOf (entry m d (a / pgSize)) ≠ frameOf (entry m d v) := by
        intro same
        have label := serving.owned.user d _ dir user' (mapped_of_exactlyOne one')
        rw [same, serving.owned.user d v dir user isMapped] at label
        injection label with _ pages
        exact here pages.symm
      rw [overlay_outside apart, ← serving.shows a inBuffer]
      refine plainByte_congr (funext fun i => ?_)
      simp only [plaintext, entries d _ dir (page_lt user')]
      rw [m.setBytes_word_of_ne _ o bytes other i]

theorem Serving.patchByte (serving : Serving image own spaces d buffer m img)
    (part : buffer (va / pgSize)) (mask value : BitVec 8) :
    ∃ m', patchByte clockOps d va mask value m = .ok m' ∧ Serves image own d buffer m m' ∧
      Serving image own spaces d buffer m' (overlay img va [replaceIn (img va) mask value]) ∧
      has (entry m' d (va / pgSize)) pteP = true := by
  obtain ⟨m₁, touched, serves, serving₁, present⟩ := serving.touch part
  have one := (serving₁.coded _ part).2
  have plain : has (entry m₁ d (va / pgSize)) pteE = false := by
    rw [exactlyOne, present] at one
    simpa using one
  have old : m₁.byte (frameOf (entry m₁ d (va / pgSize))) (va % pgSize) = img va := by
    rw [← serving₁.shows va part, plainByte_open plain, spaceByte]
  have inPage : va % pgSize < pgSize := Nat.mod_lt _ (by decide)
  have entries := (serving₁.owned.setBytes_recoded (serving₁.live d serving₁.inside)
    (serving₁.coded _ part).1 (mapped_of_exactlyOne one) (va % pgSize)
    [replaceIn (img va) mask value]).2 d _ (serving₁.live d serving₁.inside)
    (serving₁.small _ part)
  obtain ⟨serves', serving'⟩ := serving₁.store part present [replaceIn (img va) mask value]
    (show va % pgSize + 1 ≤ pgSize from inPage)
  rw [show va / pgSize * pgSize + va % pgSize = va by rw [Nat.mul_comm]; exact Nat.div_add_mod ..]
    at serving'
  refine ⟨_, ?_, serves.trans serving.small serves', serving', by rw [entries, present]⟩
  rw [MemoryEncryption.patchByte, touched]
  simp only [ok_bind, old]
  rfl

/-- The kernel replaces bits in the first bytes of a word of the buffer. -/
theorem Serving.patchWord (serving : Serving image own spaces d buffer m img) (n : Nat)
    (top : va + n ≤ kernBase) (part : ∀ k < n, buffer ((va + k) / pgSize)) (mask value : Word) :
    ∃ m', patchWord clockOps d va mask value n m = .ok m' ∧ Serves image own d buffer m m' ∧
      Serving image own spaces d buffer m' (replaceBits img va mask value n) := by
  induction n with
  | zero =>
    refine ⟨m, rfl, .refl serving.owned, ?_⟩
    rwa [show replaceBits img va mask value 0 = img from
      funext fun b => replaceBits_outside (by omega)]
  | succ n ih =>
    obtain ⟨m₁, patched, serves, serving₁⟩ := ih (by omega) fun k inside => part k (by omega)
    have address : (va + n) % 2 ^ 32 = va + n := by
      unfold kernBase at top
      omega
    obtain ⟨m₂, patched₂, serves₂, serving₂, -⟩ := serving₁.patchByte (part n (by omega))
      (mask.extractLsb' (8 * n) 8) (value.extractLsb' (8 * n) 8)
    refine ⟨m₂, ?_, serves.trans serving.small serves₂, ?_⟩
    · rw [MemoryEncryption.patchWord, patched, ok_bind, address, patched₂]
    · rw [replaceBits_succ]
      convert serving₂ using 1
      funext b
      by_cases here : b = va + n
      · subst here
        rw [if_pos rfl]
        exact (overlay_inside (show 0 < [_].length from Nat.one_pos)).symm
      · rw [if_neg here, overlay_outside (by simp; omega)]

end MemoryEncryption
