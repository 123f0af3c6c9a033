import MemoryEncryption.Verif.OneProcess

/-!
# `mencrypt` on any page table

Nothing is assumed here about who owns which frame. It is enough that the pages that
`uva2ka` accepts lie in frames of their own, apart from the directory and its page
tables. Over such a page table `mencrypt` refuses a range and changes nothing, or
encrypts the range and changes nothing outside of it.
-/

namespace MemoryEncryption

open Outcome

variable {σ : Type} {m m' m'' : Mem σ} {d : Nat}

/-- A page table whose accessible pages can be flipped one by one. -/
structure Separated (m : Mem σ) (d : Nat) : Prop where
  /-- Distinct pages have distinct frames. -/
  distinct : ∀ v w, v < 2 ^ 20 → w < 2 ^ 20 → Accessible m d v → Accessible m d w →
    frameOf (entry m d v) = frameOf (entry m d w) → v = w
  /-- No page is the directory. -/
  directory : ∀ v < 2 ^ 20, Accessible m d v → frameOf (entry m d v) ≠ d
  /-- No page is a page table. -/
  table : ∀ v < 2 ^ 20, Accessible m d v →
    ∀ i < 1024, tableOf m d i ≠ some (frameOf (entry m d v))
  /-- The directory is not a page table of its own. -/
  apart : ∀ i < 1024, tableOf m d i ≠ some d
  /-- A page is present or encrypted, not both. -/
  once : ∀ v < 2 ^ 20, Accessible m d v → exactlyOne (entry m d v) = true
  /-- The kernel may write to a page; `CR0_WP` makes it fault on others. -/
  writable : ∀ v < 2 ^ 20, Accessible m d v → has (entry m d v) pteW = true

/-- A word that encrypting the pages of a range may change: one of a page or the entry of one. -/
def Touches (m : Mem σ) (d : Nat) (range : Nat → Prop) (f i : Nat) : Prop :=
  ∃ w < 2 ^ 20, range w ∧ (f = frameOf (entry m d w) ∨ pteAt m d w = some ⟨f, i⟩)

/-- The pages of a range have become encrypted and nothing else has changed. -/
structure Encrypted (d : Nat) (range : Nat → Prop) (m m' : Mem σ) : Prop where
  /-- The page tables are the same. -/
  tables : ∀ i < 1024, tableOf m' d i = tableOf m d i
  /-- Frames and the flags other than the code flags are the same. -/
  entries : ∀ w < 2 ^ 20, entry m' d w &&& ~~~codeFlags = entry m d w &&& ~~~codeFlags
  /-- Pages outside the range keep their entries. -/
  outside : ∀ w < 2 ^ 20, ¬ range w → entry m' d w = entry m d w
  /-- Pages of the range are encrypted and not present. -/
  inside : ∀ w < 2 ^ 20, range w →
    has (entry m' d w) pteE = true ∧ has (entry m' d w) pteP = false
  /-- Accessible pages keep their plaintext. -/
  plain : ∀ w < 2 ^ 20, Accessible m d w → plaintext m' d w = plaintext m d w
  /-- Words other than those of the range and its entries are the same. -/
  words : ∀ f i, ¬ Touches m d range f i → m'.word f i = m.word f i
  /-- The free list is the same. -/
  freelist : m'.freelist = m.freelist
  /-- The queue is the same. -/
  queue : m'.queue = m.queue

variable {w : Nat}

namespace Encrypted

variable {range range' : Nat → Prop}

theorem pteAt_eq (change : Encrypted d range m m') (bound : w < 2 ^ 20) :
    pteAt m' d w = pteAt m d w := by
  rw [pteAt, pteAt, change.tables (w / 1024) (by omega)]

theorem frame_eq (change : Encrypted d range m m') (bound : w < 2 ^ 20) :
    frameOf (entry m' d w) = frameOf (entry m d w) :=
  frameOf_of_codeFlags (change.entries w bound)

theorem accessible_iff (change : Encrypted d range m m')
    (all : ∀ w < 2 ^ 20, range w → Accessible m d w) (bound : w < 2 ^ 20) :
    Accessible m' d w ↔ Accessible m d w := by
  by_cases within : range w
  · have before := all w bound within
    have user : has (entry m' d w) pteU = true := by
      rw [has_pteU, user_of_codeFlags (change.entries w bound), ← has_pteU]
      exact before.2
    have encrypted := (change.inside w bound within).1
    rw [has_pteE] at encrypted
    have isMapped : mapped (entry m' d w) = true := by
      rw [mapped_iff, encrypted, Bool.or_true]
    exact ⟨fun _ => before, fun _ => ⟨isMapped, user⟩⟩
  · rw [Accessible, Accessible, change.outside w bound within]

/-- The page table stays one whose pages can be flipped. -/
theorem separated (change : Encrypted d range m m')
    (all : ∀ w < 2 ^ 20, range w → Accessible m d w) (apart : Separated m d) :
    Separated m' d := by
  have same : ∀ w < 2 ^ 20, Accessible m' d w → Accessible m d w :=
    fun w bound => (change.accessible_iff all bound).mp
  constructor
  case distinct =>
    intro v w inV inW accV accW frames
    rw [change.frame_eq inV, change.frame_eq inW] at frames
    exact apart.distinct v w inV inW (same v inV accV) (same w inW accW) frames
  case directory =>
    intro v inV accV
    rw [change.frame_eq inV]
    exact apart.directory v inV (same v inV accV)
  case table =>
    intro v inV accV i inI
    rw [change.frame_eq inV, change.tables i inI]
    exact apart.table v inV (same v inV accV) i inI
  case apart =>
    intro i inI
    rw [change.tables i inI]
    exact apart.apart i inI
  case once =>
    intro v inV accV
    by_cases within : range v
    · obtain ⟨encrypted, absent⟩ := change.inside v inV within
      rw [exactlyOne, encrypted, absent]
      rfl
    · rw [change.outside v inV within]
      exact apart.once v inV (same v inV accV)
  case writable =>
    intro v inV accV
    have before := apart.writable v inV (same v inV accV)
    rw [has_pteW] at before ⊢
    rw [bit_of_codeFlags (change.entries v inV) (by decide)]
    exact before

theorem refl (done : ∀ w < 2 ^ 20, range w →
    has (entry m d w) pteE = true ∧ has (entry m d w) pteP = false) : Encrypted d range m m where
  tables _ _ := rfl
  entries _ _ := rfl
  outside _ _ _ := rfl
  inside := done
  plain _ _ _ := rfl
  words _ _ _ := rfl
  freelist := rfl
  queue := rfl

theorem trans (first : Encrypted d range m m') (second : Encrypted d range' m' m'')
    (all : ∀ w < 2 ^ 20, range w → Accessible m d w) :
    Encrypted d (fun w => range w ∨ range' w) m m'' := by
  constructor
  case tables =>
    intro i inI
    rw [second.tables i inI, first.tables i inI]
  case entries =>
    intro w bound
    rw [second.entries w bound, first.entries w bound]
  case outside =>
    intro w bound neither
    rw [second.outside w bound fun late => neither (.inr late),
      first.outside w bound fun early => neither (.inl early)]
  case inside =>
    intro w bound either
    by_cases late : range' w
    · exact second.inside w bound late
    · rw [second.outside w bound late]
      exact first.inside w bound (either.resolve_right late)
  case plain =>
    intro w bound accessible
    have still := (first.accessible_iff all bound).mpr accessible
    rw [second.plain w bound still, first.plain w bound accessible]
  case words =>
    intro f i untouched
    have late : ¬ Touches m' d range' f i := by
      intro ⟨w, bound, within, how⟩
      rw [first.frame_eq bound, first.pteAt_eq bound] at how
      exact untouched ⟨w, bound, .inr within, how⟩
    have early : ¬ Touches m d range f i := by
      intro ⟨w, bound, within, how⟩
      exact untouched ⟨w, bound, .inl within, how⟩
    rw [second.words f i late, first.words f i early]
  case freelist => exact second.freelist.trans first.freelist
  case queue => exact second.queue.trans first.queue

theorem congr (change : Encrypted d range m m') (same : ∀ w < 2 ^ 20, range w ↔ range' w) :
    Encrypted d range' m m' where
  tables := change.tables
  entries := change.entries
  outside w bound off := change.outside w bound fun within => off ((same w bound).mp within)
  inside w bound within := change.inside w bound ((same w bound).mpr within)
  plain := change.plain
  words f i untouched := change.words f i fun ⟨w, bound, within, how⟩ =>
    untouched ⟨w, bound, (same w bound).mp within, how⟩
  freelist := change.freelist
  queue := change.queue

end Encrypted

/-- Flipping one page and replacing its entry changes no other entry. -/
theorem Separated.flips_entries (apart : Separated m d) {v : Nat} {pte : PteAddr} {word : Word}
    (bound : v < 2 ^ 20) (accessible : Accessible m d v) (found : pteAt m d v = some pte)
    (flips : m.Flips (frameOf (entry m d v)) pte word m') :
    (∀ i < 1024, tableOf m' d i = tableOf m d i) ∧
      ∀ w < 2 ^ 20, entry m' d w = if w = v then word else entry m d w := by
  obtain ⟨-, words⟩ := flips
  have isTable : ∀ {w : Nat} {pte : PteAddr}, w < 2 ^ 20 → pteAt m d w = some pte →
      tableOf m d (w / 1024) = some pte.frame ∧ pte.frame ≠ frameOf (entry m d v) := by
    intro w pte inW found
    obtain ⟨table, present, rfl⟩ := Option.map_eq_some_iff.mp found
    refine ⟨present, fun same => apart.table v bound accessible (w / 1024) (by omega) ?_⟩
    rw [present, ← same]
  have tables : ∀ i < 1024, tableOf m' d i = tableOf m d i := by
    intro i inI
    have notTable : d ≠ pte.frame := by
      intro same
      apply apart.apart (v / 1024) (by omega)
      rw [(isTable bound found).1, same]
    have same : m'.word d i = m.word d i := by
      rw [words, if_neg (apart.directory v bound accessible).symm,
        if_neg fun both => notTable both.1]
    rw [tableOf, tableOf, same]
  refine ⟨tables, fun w inW => ?_⟩
  have address : pteAt m' d w = pteAt m d w := by
    rw [pteAt, pteAt, tables (w / 1024) (by omega)]
  cases there : pteAt m d w with
  | none =>
    have other : w ≠ v := by
      rintro rfl
      simp [found] at there
    rw [if_neg other, entry, entry, address, there]
    rfl
  | some pte' =>
    have value : entry m' d w = m'.word pte'.frame pte'.index := by
      rw [entry, address, there]
      rfl
    have value' : entry m d w = m.word pte'.frame pte'.index := by
      rw [entry, there]
      rfl
    rw [value, words, if_neg (isTable inW there).2]
    by_cases here : w = v
    · subst here
      rw [there] at found
      cases found
      simp
    · rw [if_neg here, value']
      -- an entry that two pages share would give both the same frame
      have other : ¬ (pte'.frame = pte.frame ∧ pte'.index = pte.index) := by
        rintro ⟨sameFrame, sameIndex⟩
        have shared : entry m d w = entry m d v := by
          rw [value', sameFrame, sameIndex, entry, found]
          rfl
        have accessible' : Accessible m d w := by
          rw [Accessible, shared]
          exact accessible
        exact here (apart.distinct w v inW bound accessible' accessible (by rw [shared]))
      rw [if_neg other]

/-- The step of the second loop of `mencrypt` at a page that is not encrypted. -/
theorem Separated.encryptPage (apart : Separated m d) {v : Nat} {pte : PteAddr}
    (bound : v < 2 ^ 20) (accessible : Accessible m d v) (found : pteAt m d v = some pte)
    (plain : has (entry m d v) pteE = false) :
    Encrypted d (· = v) m
      ((flipPage m pte).set pte (((flipPage m pte).get pte &&& ~~~pteP) ||| pteE)) := by
  have value := get_pteAt found
  have distinct : pte.frame ≠ frameOf (m.get pte) := by
    obtain ⟨table, present, rfl⟩ := Option.map_eq_some_iff.mp found
    intro same
    apply apart.table v bound accessible (v / 1024) (by omega)
    rw [present, ← value, ← same]
  have read : (flipPage m pte).get pte =
      entry m d v ||| m.marks.headD (pteA ||| pteD) &&& (pteA ||| pteD) := by
    simp [flipPage, Mem.get, ← value]
  generalize m.marks.headD (pteA ||| pteD) = mark at read
  rw [read]
  change Encrypted d (· = v) m ((flipPage m pte).set pte (sealedWord (entry m d v) mark))
  have flips := flipPage_set_flips m (sealedWord (entry m d v) mark) distinct
  rw [value] at flips
  have flags := sealedWord_flags (entry m d v) mark
  have kept := sealedWord_codeFlags (entry m d v) mark
  obtain ⟨tables, entries⟩ := apart.flips_entries bound accessible found flips
  obtain ⟨-, words⟩ := flips
  constructor
  case tables => exact tables
  case entries =>
    intro w inW
    rw [entries w inW]
    split
    · rename_i here
      rw [kept, here]
    · rfl
  case outside =>
    intro w inW other
    rw [entries w inW, if_neg other]
  case inside =>
    intro w inW here
    rw [entries w inW, if_pos here]
    exact flags
  case plain =>
    intro w inW accessible'
    funext i
    by_cases here : w = v
    · subst here
      rw [plaintext, plaintext, entries w inW, if_pos rfl, frameOf_of_codeFlags kept, words,
        if_pos rfl, flags.1, plain]
      simp
    · have otherFrame : frameOf (entry m d w) ≠ frameOf (entry m d v) :=
        fun same => here (apart.distinct w v inW bound accessible' accessible same)
      have notTable : frameOf (entry m d w) ≠ pte.frame := by
        obtain ⟨table, present, rfl⟩ := Option.map_eq_some_iff.mp found
        intro same
        apply apart.table w inW accessible' (v / 1024) (by omega)
        rw [present, same]
      have same := words (frameOf (entry m d w)) i
      rw [if_neg otherFrame, if_neg fun both => notTable both.1] at same
      rw [plaintext, plaintext, entries w inW, if_neg here, same]
  case words =>
    intro f i untouched
    have otherFrame : f ≠ frameOf (entry m d v) :=
      fun same => untouched ⟨v, bound, rfl, .inl same⟩
    have otherEntry : ¬ (f = pte.frame ∧ i = pte.index) := by
      rintro ⟨sameFrame, sameIndex⟩
      refine untouched ⟨v, bound, rfl, .inr ?_⟩
      rw [found, sameFrame, sameIndex]
    rw [words, if_neg otherFrame, if_neg otherEntry]
  case freelist => rfl
  case queue => rfl

/-- The pages of a range of `len` pages from the page of `va` on. -/
def InRange (va : Nat) (len : Int) (w : Nat) : Prop :=
  ∃ k < len.toNat, w = (va / pgSize + k) % 2 ^ 20

/-- `mencrypt` of a range whose pages all have page tables: if some page is not mapped or closed to
the user, it fails and changes nothing; otherwise it returns 0, every page of the range is encrypted
and not present, its plaintext is the same, and all other words are. -/
theorem mencrypt_range (va : Nat) (len : Int) (apart : Separated m d) (bound : va < 2 ^ 32)
    (tables : ∀ w, InRange va len w → pteAt m d w ≠ none) :
    ((∃ w, InRange va len w ∧ ¬ Accessible m d w) → mencrypt m d va len = .ok (false, m)) ∧
      ((∀ w, InRange va len w → Accessible m d w) →
        ∃ final, mencrypt m d va len = .ok (true, final) ∧
          Encrypted d (InRange va len) m final) := by
  have page := page_of_address bound
  rw [mencrypt, show pgRoundDown va = va / pgSize * pgSize by rfl]
  rcases mencryptCheck_spec m d len.toNat page with
    ⟨passed, all⟩ | ⟨failed, k, inside, refused⟩ | ⟨-, k, inside, absent⟩
  · have every : ∀ w, InRange va len w → Accessible m d w := by
      rintro w ⟨k, inside, rfl⟩
      exact all k inside
    refine ⟨fun refused => absurd every (by simpa using refused), fun _ => ?_⟩
    -- after some rounds, the pages passed are encrypted and the rest is as it was
    let done (rounds w : Nat) : Prop := ∃ k < rounds, w = (va / pgSize + k) % 2 ^ 20
    have looped := mencryptPages_loop d len.toNat
      (fun rounds now => Encrypted d (done rounds) m now) page ?_
      (.refl fun w _ none => absurd none (by simp [done]))
    · obtain ⟨final, ran, change⟩ := looped
      rw [passed]
      simp only [ok_bind, ↓reduceIte, ran]
      exact ⟨final, rfl, change⟩
    intro k inside now change
    have before : ∀ w < 2 ^ 20, done k w → Accessible m d w := by
      rintro w - ⟨j, earlier, rfl⟩
      exact all j (by omega)
    have inPage : (va / pgSize + k) % 2 ^ 20 < 2 ^ 20 := Nat.mod_lt _ (by decide)
    have here := (change.accessible_iff before inPage).mpr (all k inside)
    have apart' := change.separated before apart
    obtain ⟨pte, found, -⟩ := exists_pteAt here.1
    have next : ∀ w < 2 ^ 20, done k w ∨ w = (va / pgSize + k) % 2 ^ 20 ↔ done (k + 1) w := by
      intro w _
      constructor
      · rintro (⟨j, earlier, same⟩ | last)
        · exact ⟨j, by omega, same⟩
        · exact ⟨k, by omega, last⟩
      · rintro ⟨j, earlier, same⟩
        by_cases last : j = k
        · exact .inr (last ▸ same)
        · exact .inl ⟨j, by omega, same⟩
    refine ⟨pte, found, fun already => ?_, fun plain => ?_⟩
    · have once := apart'.once _ inPage here
      have still : Encrypted d (· = (va / pgSize + k) % 2 ^ 20) now now := by
        refine .refl ?_
        rintro w - rfl
        rw [exactlyOne, already] at once
        exact ⟨already, by simpa using once⟩
      exact (change.trans still before).congr next
    · exact (change.trans (apart'.encryptPage inPage here found plain) before).congr next
  · rw [failed]
    exact ⟨fun _ => rfl, fun every => absurd (every _ ⟨k, inside, rfl⟩) refused⟩
  · exact absurd absent (tables _ ⟨k, inside, rfl⟩)

/-- The page tables of live address spaces are such ones, as long as pages are present or encrypted
and not both. -/
theorem Owned.separated {image : Image} {own : Nat → Owner} (owned : Owned image m own)
    (live : own d = .dir)
    (once : ∀ v < 2 ^ 20, Accessible m d v → exactlyOne (entry m d v) = true)
    (writable : ∀ v < 2 ^ 20, Accessible m d v → has (entry m d v) pteW = true) :
    Separated m d := by
  have label : ∀ v < 2 ^ 20, Accessible m d v → own (frameOf (entry m d v)) = .user d v :=
    fun v bound accessible =>
      owned.user d v live (owned.accessible_lt live bound accessible) accessible.1
  constructor
  case distinct =>
    intro v w inV inW accV accW same
    have both := label v inV accV
    rw [same, label w inW accW] at both
    exact (Owner.user.inj both).2.symm
  case directory =>
    intro v inV accV same
    have both := label v inV accV
    rw [same, live] at both
    simp at both
  case table =>
    intro v inV accV i inI same
    have both := label v inV accV
    rw [owned.table d i _ live inI same] at both
    simp at both
  case apart =>
    intro i inI same
    have both := owned.table d i d live inI same
    rw [live] at both
    simp at both
  case once => exact once
  case writable => exact writable

theorem mixedPages_separated : Separated mixedPages.mem 401 := by
  have live := mixedPages.own_dir.mpr (.inr (rfl : 401 = 401))
  have low : ∀ v < 2 ^ 20, Accessible mixedPages.mem 401 v → v < 2 := by
    intro v _ accessible
    exact (mixedPages.exactly v).mp accessible.1
  have flags : ∀ v < 2, exactlyOne (entry mixedPages.mem 401 v) = true ∧
      has (entry mixedPages.mem 401 v) pteW = true := by
    decide +kernel
  exact mixedPages.owned.separated live
    (fun v bound accessible => (flags v (low v bound accessible)).1)
    (fun v bound accessible => (flags v (low v bound accessible)).2)

/-- Both pages end up encrypted; a range that reaches past them is refused. -/
theorem mencrypt_range_mixed :
    (∃ final, mencrypt mixedPages.mem 401 5 2 = .ok (true, final) ∧
        Encrypted 401 (InRange 5 2) mixedPages.mem final) ∧
      mencrypt mixedPages.mem 401 4096 2 = .ok (false, mixedPages.mem) := by
  have accessible : ∀ v < 2, Accessible mixedPages.mem 401 v := by
    unfold Accessible
    decide +kernel
  have tables : ∀ v < 3, pteAt mixedPages.mem 401 v ≠ none := by
    decide +kernel
  have first := mencrypt_range 5 2 mixedPages_separated (by decide) ?_
  · have second := mencrypt_range 4096 2 mixedPages_separated (by decide) ?_
    · refine ⟨first.2 ?_, second.1 ⟨2, ⟨1, by decide, by decide⟩, ?_⟩⟩
      · rintro w ⟨k, inside, rfl⟩
        change k < 2 at inside
        exact accessible _ (by unfold pgSize; omega)
      · unfold Accessible
        decide +kernel
    · rintro w ⟨k, inside, rfl⟩
      change k < 2 at inside
      exact tables _ (by unfold pgSize; omega)
  · rintro w ⟨k, inside, rfl⟩
    change k < 2 at inside
    exact tables _ (by unfold pgSize; omega)

/-- A page that is both present and encrypted is taken for encrypted and stays present. -/
theorem mencrypt_range_both :
    (∀ v, mapped (entry doublyMarked.mem 401 v) = true → v = 0) ∧
      pteAt doublyMarked.mem 401 0 ≠ none ∧ Accessible doublyMarked.mem 401 0 ∧
      ∃ final, mencrypt doublyMarked.mem 401 0 1 = .ok (true, final) ∧
        has (entry final 401 0) pteP = true := by
  have returns : ((mencrypt doublyMarked.mem 401 0 1).map fun r =>
      (r.1, has (entry r.2 401 0) pteP)).toOption = some (true, true) := by decide +kernel
  obtain ⟨⟨done, final⟩, ran, seen⟩ := exists_ok returns
  obtain ⟨rfl, present⟩ := Prod.mk.inj seen
  refine ⟨fun v isMapped => ?_, by decide +kernel, ?_, final, ran, present⟩
  · have low : v < 1 := (doublyMarked.exactly v).mp isMapped
    omega
  · unfold Accessible
    decide +kernel

end MemoryEncryption
