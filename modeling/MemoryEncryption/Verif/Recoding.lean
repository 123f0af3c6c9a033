import MemoryEncryption.Kernel.Crypt
import MemoryEncryption.Verif.AddressSpaces

/-!
# What encryption and decryption preserve

The plaintext of a page is its frame's contents, complemented when `PTE_E` is set.
`mencrypt` and `mdecrypt` change the contents of user pages and four flags of their
entries. `Recoded` says that nothing else changes, and `Preserved` that plaintexts
do not; both compose, so a sequence of changes is dealt with one page at a time.
-/

namespace MemoryEncryption

variable {σ : Type} {image : Image} {m m' m'' : Mem σ} {own : Nat → Owner}

/-- The flags that encryption, decryption and the hardware change. -/
def codeFlags : Word := pteP ||| pteA ||| pteD ||| pteE

/-- The plaintext of a page. -/
def plaintext (m : Mem σ) (d v : Nat) : Nat → Word := fun i =>
  if has (entry m d v) pteE then ~~~m.word (frameOf (entry m d v)) i
  else m.word (frameOf (entry m d v)) i

/-- Exactly one of `PTE_P` and `PTE_E` is set. -/
def exactlyOne (entry : Word) : Bool := has entry pteP != has entry pteE

theorem mapped_of_exactlyOne {word : Word} (one : exactlyOne word = true) :
    mapped word = true := by
  simp only [exactlyOne, has_pteP, has_pteE] at one
  rw [mapped_iff]
  revert one
  cases word.getLsbD 0 <;> cases word.getLsbD 10 <;> simp

/-- Only the code flags of entries differ. -/
structure Recoded (image : Image) (own : Nat → Owner) (m m' : Mem σ) : Prop where
  owned : Owned image m' own
  addresses : ∀ d v, own d = .dir → pteAt m' d v = pteAt m d v
  entries : ∀ d v, own d = .dir → v < 2 ^ 20 →
    entry m' d v &&& ~~~codeFlags = entry m d v &&& ~~~codeFlags
  maps : ∀ d v, own d = .dir → v < userPages → mapped (entry m' d v) = mapped (entry m d v)

/-- A change of the contents of a user page changes no lookup. -/
theorem Owned.contents (owned : Owned image m own) {f d v : Nat} (label : own f = .user d v)
    (words : ∀ g ≠ f, m'.word g = m.word g) (list : m'.freelist = m.freelist) :
    Recoded image own m m' ∧
      ∀ e w, own e = .dir → w < 2 ^ 20 → entry m' e w = entry m e w := by
  have structural : ∀ g i, (own g).Structural → m'.word g i = m.word g i := by
    intro g i structural
    rw [words g]
    rintro rfl
    simp [Owner.Structural, label] at structural
  have views := owned.views structural
  exact ⟨⟨owned.of_structural structural list, fun e w live => (views e live).2.1 w,
    fun e w live bound => by rw [(views e live).2.2 w bound],
    fun e w live bound => by rw [(views e live).2.2 w (page_lt bound)]⟩,
    fun e w live bound => (views e live).2.2 w bound⟩

/-- Every page with exactly one of the flags keeps that property and its plaintext. -/
def Preserved (own : Nat → Owner) (m m' : Mem σ) : Prop :=
  ∀ d v, own d = .dir → v < userPages → exactlyOne (entry m d v) = true →
    exactlyOne (entry m' d v) = true ∧ plaintext m' d v = plaintext m d v

/-- Every page with exactly one of the flags keeps that property. -/
def KeepsOne (own : Nat → Owner) (m m' : Mem σ) : Prop :=
  ∀ d v, own d = .dir → v < userPages → exactlyOne (entry m d v) = true →
    exactlyOne (entry m' d v) = true

theorem Preserved.keepsOne (preserved : Preserved own m m') : KeepsOne own m m' :=
  fun d v live user one => (preserved d v live user one).1

theorem Recoded.refl (owned : Owned image m own) : Recoded image own m m :=
  ⟨owned, fun _ _ _ => rfl, fun _ _ _ _ => rfl, fun _ _ _ _ => rfl⟩

theorem Recoded.trans (first : Recoded image own m m') (second : Recoded image own m' m'') :
    Recoded image own m m'' where
  owned := second.owned
  addresses d v live := (second.addresses d v live).trans (first.addresses d v live)
  entries d v live bound := (second.entries d v live bound).trans (first.entries d v live bound)
  maps d v live bound := (second.maps d v live bound).trans (first.maps d v live bound)

theorem Preserved.refl (own : Nat → Owner) (m : Mem σ) : Preserved own m m :=
  fun _ _ _ _ one => ⟨one, rfl⟩

theorem Preserved.trans (first : Preserved own m m') (second : Preserved own m' m'') :
    Preserved own m m'' := by
  intro d v live bound one
  obtain ⟨one', same⟩ := first d v live bound one
  obtain ⟨one'', same'⟩ := second d v live bound one'
  exact ⟨one'', same'.trans same⟩

theorem bit_of_codeFlags {left right : Word}
    (same : left &&& ~~~codeFlags = right &&& ~~~codeFlags) {k : Nat}
    (other : codeFlags.getLsbD k = false) : left.getLsbD k = right.getLsbD k := by
  have bit := congrArg (fun word : Word => word.getLsbD k) same
  simp only [BitVec.getLsbD_and, BitVec.getLsbD_not, other, Bool.not_false, Bool.and_true] at bit
  by_cases inside : k < 32
  · simpa [inside] using bit
  · rw [BitVec.getLsbD_of_ge left k (by omega), BitVec.getLsbD_of_ge right k (by omega)]

theorem frameOf_of_codeFlags {left right : Word}
    (same : left &&& ~~~codeFlags = right &&& ~~~codeFlags) : frameOf left = frameOf right :=
  frameOf_congr fun _ high => bit_of_codeFlags same (flags_high (by decide) high)

theorem user_of_codeFlags {left right : Word}
    (same : left &&& ~~~codeFlags = right &&& ~~~codeFlags) :
    left.getLsbD 2 = right.getLsbD 2 :=
  bit_of_codeFlags same (by decide)

/-! ## One page -/

/-- The words after the contents of one frame have been complemented and one entry replaced. -/
def Mem.Flips (m : Mem σ) (f : Nat) (pte : PteAddr) (word : Word) (m' : Mem σ) : Prop :=
  m'.freelist = m.freelist ∧ ∀ g i, m'.word g i =
    if g = f then ~~~m.word g i
    else if g = pte.frame ∧ i = pte.index then word else m.word g i

variable {d v : Nat}

/-- Complementing the frame of a mapped page and changing the code flags of its entry. -/
theorem Owned.recode (owned : Owned image m own) {pte : PteAddr} (live : own d = .dir)
    (bound : v < userPages) (found : pteAt m d v = some pte) {word : Word}
    (before : mapped (entry m d v) = true) (after : mapped word = true)
    (flags : word &&& ~~~codeFlags = entry m d v &&& ~~~codeFlags)
    (flips : m.Flips (frameOf (entry m d v)) pte word m') :
    Recoded image own m m' ∧ ∀ d' v', own d' = .dir → v' < 2 ^ 20 →
      entry m' d' v' = if d' = d ∧ v' = v then word else entry m d' v' := by
  obtain ⟨list, words⟩ := flips
  have label := owned.user d v live bound before
  generalize target : frameOf (entry m d v) = f at label words
  obtain ⟨isTable, -⟩ := owned.pteAt_table live (page_lt bound) found
  have distinct : pte.frame ≠ f := by
    rintro rfl
    simp [isTable] at label
  -- the same memory as by a page write and an entry write, each of which keeps the labels
  have same : m'.word = ((m.set pte word).setPage f fun i => ~~~m.word f i).word := by
    funext g i
    rw [words g i]
    by_cases here : g = f
    · subst here
      simp
    · simp [here]
  have owned₁ := owned.setFlags live bound found before after
    (by rw [frameOf_of_codeFlags flags])
  have owned₂ := owned₁.fill (f := f) (by simp [Owner.Structural, label]) fun i => ~~~m.word f i
  have owned' : Owned image m' own :=
    owned₂.of_structural (fun g i _ => by rw [same]) list
  obtain ⟨-, addresses, entries⟩ := owned.set_lookups live (page_lt bound) found word
  have lookups : ∀ d', own d' = .dir → (∀ v', pteAt m' d' v' = pteAt (m.set pte word) d' v') ∧
      ∀ v' < 2 ^ 20, entry m' d' v' = entry (m.set pte word) d' v' := by
    intro d' live'
    have views := owned₁.lookups_eq m' live' (fun i => by
      have other : d' ≠ f := by
        rintro rfl
        simp [label] at live'
      rw [same]
      simp [other]) (fun g j i isTable' => by
      have other : g ≠ f := by
        rintro rfl
        simp [label] at isTable'
      rw [same]
      simp [other])
    exact ⟨views.2.1, views.2.2⟩
  have final : ∀ d' v', own d' = .dir → v' < 2 ^ 20 →
      entry m' d' v' = if d' = d ∧ v' = v then word else entry m d' v' := by
    intro d' v' live' bound'
    rw [(lookups d' live').2 v' bound', entries d' v' live' bound']
  refine ⟨⟨owned', ?_, ?_, ?_⟩, final⟩
  · intro d' v' live'
    rw [(lookups d' live').1 v', addresses d' v' live']
  · intro d' v' live' bound'
    rw [final d' v' live' bound']
    split
    · rename_i here
      rw [flags, here.1, here.2]
    · rfl
  · intro d' v' live' bound'
    rw [final d' v' live' (page_lt bound')]
    split
    · rename_i here
      rw [after, here.1, here.2, before]
    · rfl

/-- The pages of all address spaces keep their entries and contents, except some of `d`. -/
def PagesKept (own : Nat → Owner) (d : Nat) (changed : Nat → Prop) (m m' : Mem σ) : Prop :=
  ∀ e v, own e = .dir → v < userPages → mapped (entry m e v) = true → ¬ (e = d ∧ changed v) →
    entry m' e v = entry m e v ∧
      m'.word (frameOf (entry m e v)) = m.word (frameOf (entry m e v))

theorem PagesKept.refl (own : Nat → Owner) (d : Nat) (changed : Nat → Prop) (m : Mem σ) :
    PagesKept own d changed m m :=
  fun _ _ _ _ _ _ => ⟨rfl, rfl⟩

variable {changed : Nat → Prop}

theorem PagesKept.trans (first : PagesKept own d changed m m')
    (second : PagesKept own d changed m' m'') : PagesKept own d changed m m'' := by
  intro e v live bound isMapped other
  obtain ⟨same, contents⟩ := first e v live bound isMapped other
  obtain ⟨same', contents'⟩ := second e v live bound (by rw [same, isMapped]) other
  rw [same] at same' contents'
  exact ⟨same', contents'.trans contents⟩

theorem PagesKept.widen {changed' : Nat → Prop} (kept : PagesKept own d changed m m')
    (wider : ∀ v, changed v → changed' v) : PagesKept own d changed' m m' := by
  intro e v live bound isMapped other
  apply kept e v live bound isMapped
  rintro ⟨here, inside⟩
  exact other ⟨here, wider v inside⟩

/-- Complementing the frame of one page and changing its entry touches no other page. -/
theorem Owned.recode_keeps (owned : Owned image m own) {pte : PteAddr} (live : own d = .dir)
    (bound : v < userPages) (found : pteAt m d v = some pte) {word : Word}
    (before : mapped (entry m d v) = true) (after : mapped word = true)
    (flags : word &&& ~~~codeFlags = entry m d v &&& ~~~codeFlags)
    (flips : m.Flips (frameOf (entry m d v)) pte word m') : PagesKept own d (· = v) m m' := by
  obtain ⟨-, final⟩ := owned.recode live bound found before after flags flips
  obtain ⟨-, words⟩ := flips
  intro d' v' live' bound' isMapped here
  have label := owned.user d v live bound before
  have label' := owned.user d' v' live' bound' isMapped
  obtain ⟨isTable, -⟩ := owned.pteAt_table live (page_lt bound) found
  refine ⟨by rw [final d' v' live' (page_lt bound'), if_neg here], ?_⟩
  have other : frameOf (entry m d' v') ≠ frameOf (entry m d v) := by
    intro same
    rw [same, label] at label'
    injection label' with left right
    exact here ⟨left.symm, right.symm⟩
  have notTable : frameOf (entry m d' v') ≠ pte.frame := by
    intro same
    rw [same, isTable] at label'
    simp at label'
  funext i
  rw [words, if_neg other, if_neg (fun both => notTable both.1)]

/-- If the complement comes with a change of `PTE_E`, no plaintext changes. -/
theorem Owned.recode_preserved (owned : Owned image m own) {pte : PteAddr} (live : own d = .dir)
    (bound : v < userPages) (found : pteAt m d v = some pte) {word : Word}
    (before : mapped (entry m d v) = true) (after : exactlyOne word = true)
    (flags : word &&& ~~~codeFlags = entry m d v &&& ~~~codeFlags)
    (flips : m.Flips (frameOf (entry m d v)) pte word m')
    (switched : has word pteE = !has (entry m d v) pteE) : Preserved own m m' := by
  obtain ⟨-, final⟩ := owned.recode live bound found before (mapped_of_exactlyOne after) flags flips
  have kept := owned.recode_keeps live bound found before (mapped_of_exactlyOne after) flags flips
  obtain ⟨-, words⟩ := flips
  intro d' v' live' bound' one
  have value := final d' v' live' (page_lt bound')
  by_cases here : d' = d ∧ v' = v
  · obtain ⟨rfl, rfl⟩ := here
    simp only [and_self, ↓reduceIte] at value
    refine ⟨by rw [value]; exact after, ?_⟩
    funext i
    have contents := words (frameOf (entry m d' v')) i
    simp only [↓reduceIte] at contents
    rw [plaintext, plaintext, value, frameOf_of_codeFlags flags, contents, switched]
    cases has (entry m d' v') pteE <;> simp
  · obtain ⟨same, contents⟩ := kept d' v' live' bound' (mapped_of_exactlyOne one) here
    refine ⟨by rw [same]; exact one, ?_⟩
    funext i
    rw [plaintext, plaintext, same, contents]

/-! ## The words that the code writes -/

/-- The entry `mencrypt` leaves, given the bits that the hardware set on the way. -/
def sealedWord (word mark : Word) : Word :=
  ((word ||| mark &&& (pteA ||| pteD)) &&& ~~~pteP) ||| pteE

/-- The entry `mdecrypt` leaves, given the bits that the hardware set on the way. -/
def openedWord (word mark : Word) : Word :=
  ((word &&& ~~~pteE) ||| pteP) ||| mark &&& (pteA ||| pteD)

theorem or_codeFlags {word flags : Word} (inside : flags &&& ~~~codeFlags = 0#32) :
    (word ||| flags) &&& ~~~codeFlags = word &&& ~~~codeFlags := by
  rw [BitVec.and_or_distrib_right, inside, BitVec.or_zero]

theorem clear_codeFlags {word flags : Word} (inside : ~~~flags &&& ~~~codeFlags = ~~~codeFlags) :
    word &&& ~~~flags &&& ~~~codeFlags = word &&& ~~~codeFlags := by
  rw [BitVec.and_assoc, inside]

theorem mark_codeFlags (mark : Word) : mark &&& (pteA ||| pteD) &&& ~~~codeFlags = 0#32 := by
  rw [BitVec.and_assoc, show (pteA ||| pteD) &&& ~~~codeFlags = 0#32 by decide, BitVec.and_zero]

theorem sealedWord_codeFlags (word mark : Word) :
    sealedWord word mark &&& ~~~codeFlags = word &&& ~~~codeFlags := by
  rw [sealedWord, or_codeFlags (by decide), clear_codeFlags (by decide),
    or_codeFlags (mark_codeFlags mark)]

theorem openedWord_codeFlags (word mark : Word) :
    openedWord word mark &&& ~~~codeFlags = word &&& ~~~codeFlags := by
  rw [openedWord, or_codeFlags (mark_codeFlags mark), or_codeFlags (by decide),
    clear_codeFlags (by decide)]

theorem sealedWord_flags (word mark : Word) :
    has (sealedWord word mark) pteE = true ∧ has (sealedWord word mark) pteP = false := by
  simp only [has_pteE, has_pteP, sealedWord, BitVec.getLsbD_and, BitVec.getLsbD_or,
    BitVec.getLsbD_not]
  exact ⟨by simp [pteE], by simp [pteE, pteP]⟩

theorem openedWord_flags (word mark : Word) :
    has (openedWord word mark) pteE = false ∧ has (openedWord word mark) pteP = true := by
  simp only [has_pteE, has_pteP, openedWord, BitVec.getLsbD_and, BitVec.getLsbD_or,
    BitVec.getLsbD_not]
  exact ⟨by simp [pteE, pteP, pteA, pteD], by simp [pteP]⟩

theorem flipPage_set_flips (m : Mem σ) {pte : PteAddr} (word : Word)
    (distinct : pte.frame ≠ frameOf (m.get pte)) :
    m.Flips (frameOf (m.get pte)) pte word ((flipPage m pte).set pte word) := by
  refine ⟨rfl, fun g i => ?_⟩
  by_cases here : g = frameOf (m.get pte)
  · subst here
    simp [flipPage, distinct.symm]
  · by_cases slot : g = pte.frame ∧ i = pte.index
    · simp [slot, distinct]
    · simp [flipPage, here, slot]

theorem set_flipPage_flips (m : Mem σ) {pte : PteAddr} {word : Word}
    (same : frameOf word = frameOf (m.get pte)) (distinct : pte.frame ≠ frameOf (m.get pte)) :
    m.Flips (frameOf (m.get pte)) pte
      (word ||| m.marks.headD (pteA ||| pteD) &&& (pteA ||| pteD))
      (flipPage (m.set pte word) pte) := by
  have value : (m.set pte word).get pte = word := by simp [Mem.get]
  have marks : (m.set pte word).marks = m.marks := rfl
  refine ⟨rfl, fun g i => ?_⟩
  simp only [flipPage, value, marks, same]
  by_cases here : g = frameOf (m.get pte)
  · subst here
    simp [distinct.symm]
  · by_cases slot : g = pte.frame ∧ i = pte.index
    · simp [slot, distinct]
    · simp [here, slot]

/-! ## `mencrypt` -/

/-- A page that `uva2ka` finds: mapped and accessible to the user. -/
def Accessible (m : Mem σ) (d v : Nat) : Prop :=
  mapped (entry m d v) = true ∧ has (entry m d v) pteU = true

theorem Owned.accessible_lt (owned : Owned image m own) (live : own d = .dir) (bound : v < 2 ^ 20)
    (accessible : Accessible m d v) : v < userPages := by
  by_contra high
  have closed := owned.kernel d v live (by omega) bound
  have user := accessible.2
  rw [has_pteU, closed] at user
  simp at user

theorem Recoded.accessible (change : Recoded image own m m') (live : own d = .dir)
    (bound : v < userPages) (accessible : Accessible m d v) : Accessible m' d v := by
  refine ⟨by rw [change.maps d v live bound, accessible.1], ?_⟩
  rw [has_pteU, user_of_codeFlags (change.entries d v live (page_lt bound)), ← has_pteU]
  exact accessible.2

theorem uva2ka_eq (m : Mem σ) (d : Nat) (bound : v < 2 ^ 20) :
    uva2ka m d (v * pgSize) =
      match pteAt m d v with
      | none => .error .nullDeref
      | some _ => .ok (if mapped (entry m d v) && has (entry m d v) pteU then
          some (frameOf (entry m d v)) else none) := by
  rw [uva2ka, walkpgdir_page m d bound]
  cases found : pteAt m d v with
  | none => rfl
  | some pte =>
    have value := get_pteAt found
    simp only [value]
    cases mapped (entry m d v) <;> cases has (entry m d v) pteU <;> simp

theorem next_slider (v : Nat) :
    (v * pgSize + pgSize) % 2 ^ 32 = (v + 1) % 2 ^ 20 * pgSize := by
  unfold pgSize
  omega

/-- The first loop of `mencrypt` finds every page accessible, or one that is not, or one without a
page table. -/
theorem mencryptCheck_spec (m : Mem σ) (d : Nat) (rounds : Nat) (bound : v < 2 ^ 20) :
    (mencryptCheck d m rounds (v * pgSize) = .ok true ∧
        ∀ k < rounds, Accessible m d ((v + k) % 2 ^ 20)) ∨
      (mencryptCheck d m rounds (v * pgSize) = .ok false ∧
        ∃ k < rounds, ¬ Accessible m d ((v + k) % 2 ^ 20)) ∨
      (mencryptCheck d m rounds (v * pgSize) = .error .nullDeref ∧
        ∃ k < rounds, pteAt m d ((v + k) % 2 ^ 20) = none) := by
  induction rounds generalizing v with
  | zero => exact .inl ⟨rfl, fun k inside => by omega⟩
  | succ rounds ih =>
    have first : (v + 0) % 2 ^ 20 = v := by omega
    rw [mencryptCheck, uva2ka_eq m d bound]
    cases found : pteAt m d v with
    | none => exact .inr (.inr ⟨rfl, 0, by omega, by rw [first, found]⟩)
    | some pte =>
      by_cases accessible : Accessible m d v
      · simp only [accessible.1, accessible.2, Bool.and_self, ↓reduceIte, Outcome.ok_bind,
          next_slider]
        have shift : ∀ k, ((v + 1) % 2 ^ 20 + k) % 2 ^ 20 = (v + (k + 1)) % 2 ^ 20 := by
          intro k
          omega
        rcases ih (v := (v + 1) % 2 ^ 20) (by omega) with
          ⟨passed, all⟩ | ⟨failed, k, inside, bad⟩ | ⟨failed, k, inside, bad⟩
        · refine .inl ⟨passed, fun k inside => ?_⟩
          cases k with
          | zero => rwa [first]
          | succ k =>
            rw [← shift]
            exact all k (by omega)
        · exact .inr (.inl ⟨failed, k + 1, by omega, by rwa [← shift]⟩)
        · exact .inr (.inr ⟨failed, k + 1, by omega, by rwa [← shift]⟩)
      · have refused : (mapped (entry m d v) && has (entry m d v) pteU) = false := by
          rw [Bool.eq_false_iff]
          intro both
          exact accessible (Bool.and_eq_true_iff.mp both)
        simp only [refused, Bool.false_eq_true, ↓reduceIte, Outcome.ok_bind]
        exact .inr (.inl ⟨trivial, 0, by omega, by rwa [first]⟩)

/-- Entries are the same, except that some user pages of address space `d` have become encrypted. -/
def SealedIn (own : Nat → Owner) (d : Nat) (m m' : Mem σ) : Prop :=
  ∀ d' v, own d' = .dir → v < 2 ^ 20 →
    entry m' d' v = entry m d' v ∨
      (d' = d ∧ has (entry m' d' v) pteE = true ∧ has (entry m' d' v) pteU = true)

theorem SealedIn.refl (own : Nat → Owner) (d : Nat) (m : Mem σ) : SealedIn own d m m :=
  fun _ _ _ _ => .inl rfl

theorem SealedIn.stays {d' : Nat} (change : SealedIn own d m m') (live : own d' = .dir)
    (bound : v < 2 ^ 20) (before : has (entry m d' v) pteE = true) :
    has (entry m' d' v) pteE = true := by
  rcases change d' v live bound with same | ⟨-, after, -⟩
  · rw [same, before]
  · exact after

theorem SealedIn.trans (first : SealedIn own d m m') (second : SealedIn own d m' m'') :
    SealedIn own d m m'' := by
  intro d' v live bound
  rcases second d' v live bound with same | ⟨here, after⟩
  · rw [same]
    exact first d' v live bound
  · exact .inr ⟨here, after⟩

/-- The step of the second loop of `mencrypt` at a page that is not encrypted. -/
theorem encryptPage_spec (owned : Owned image m own) {pte : PteAddr} (live : own d = .dir)
    (bound : v < userPages) (found : pteAt m d v = some pte) (accessible : Accessible m d v)
    (plain : has (entry m d v) pteE = false) :
    ∃ final, (flipPage m pte).set pte (((flipPage m pte).get pte &&& ~~~pteP) ||| pteE) = final ∧
      Recoded image own m final ∧ Preserved own m final ∧ final.queue = m.queue ∧
      SealedIn own d m final ∧ PagesKept own d (· = v) m final ∧
      has (entry final d v) pteE = true := by
  have value := get_pteAt found
  have isMapped := accessible.1
  have label := owned.user d v live bound isMapped
  obtain ⟨isTable, -⟩ := owned.pteAt_table live (page_lt bound) found
  have distinct : pte.frame ≠ frameOf (m.get pte) := by
    intro same
    rw [same, value] at isTable
    simp [label] at isTable
  have read : (flipPage m pte).get pte =
      entry m d v ||| m.marks.headD (pteA ||| pteD) &&& (pteA ||| pteD) := by
    simp [flipPage, Mem.get, ← value]
  generalize m.marks.headD (pteA ||| pteD) = mark at read
  rw [read]
  change ∃ final, (flipPage m pte).set pte (sealedWord (entry m d v) mark) = final ∧ _
  have flips := flipPage_set_flips m (sealedWord (entry m d v) mark) distinct
  rw [value] at flips
  obtain ⟨sealedE, sealedP⟩ := sealedWord_flags (entry m d v) mark
  have one : exactlyOne (sealedWord (entry m d v) mark) = true := by
    simp [exactlyOne, sealedE, sealedP, -has_pteE, -has_pteP]
  have flags := sealedWord_codeFlags (entry m d v) mark
  obtain ⟨recoded, entries⟩ := owned.recode live bound found isMapped (mapped_of_exactlyOne one)
    flags flips
  refine ⟨_, rfl, recoded, ?_, rfl, ?_, ?_, ?_⟩
  · exact owned.recode_preserved live bound found isMapped one flags flips
      (by rw [sealedE, plain]; rfl)
  · intro d' v' live' bound'
    rw [entries d' v' live' bound']
    split
    · rename_i here
      refine .inr ⟨here.1, sealedE, ?_⟩
      rw [has_pteU, user_of_codeFlags flags, ← has_pteU]
      exact accessible.2
    · exact .inl rfl
  · exact owned.recode_keeps live bound found isMapped (mapped_of_exactlyOne one) flags flips
  · rw [entries d v live (page_lt bound), if_pos ⟨rfl, rfl⟩]
    exact sealedE

/-- The second loop of `mencrypt` keeps what each of its rounds keeps: a round finds the entry of its
page and leaves an encrypted page alone or encrypts it. -/
theorem mencryptPages_loop (d : Nat) (rounds : Nat) (Inv : Nat → Mem σ → Prop) (bound : v < 2 ^ 20)
    (round : ∀ k < rounds, ∀ now, Inv k now → ∃ pte, pteAt now d ((v + k) % 2 ^ 20) = some pte ∧
      (has (entry now d ((v + k) % 2 ^ 20)) pteE = true → Inv (k + 1) now) ∧
      (has (entry now d ((v + k) % 2 ^ 20)) pteE = false → Inv (k + 1)
        ((flipPage now pte).set pte (((flipPage now pte).get pte &&& ~~~pteP) ||| pteE))))
    (start : Inv 0 m) :
    ∃ final, mencryptPages d rounds m (v * pgSize) = .ok final ∧ Inv rounds final := by
  induction rounds generalizing m v Inv with
  | zero => exact ⟨m, rfl, start⟩
  | succ rounds ih =>
    have first : (v + 0) % 2 ^ 20 = v := by omega
    have shift : ∀ k, ((v + 1) % 2 ^ 20 + k) % 2 ^ 20 = (v + (k + 1)) % 2 ^ 20 := by
      intro k
      omega
    obtain ⟨pte, found, skipped, sealing⟩ := round 0 (by omega) m start
    rw [first] at found skipped sealing
    have value := get_pteAt found
    have rest : ∀ now, Inv 1 now →
        ∃ final, mencryptPages d rounds now ((v + 1) % 2 ^ 20 * pgSize) = .ok final ∧
          Inv (rounds + 1) final := by
      intro now held
      apply ih (fun k => Inv (k + 1)) (by omega) ?_ held
      intro k inside now held
      rw [shift]
      exact round (k + 1) (by omega) now held
    rw [mencryptPages, walkpgdir_page m d bound, found]
    simp only [value, next_slider]
    cases plain : has (entry m d v) pteE with
    | true => exact rest m (skipped plain)
    | false => exact rest _ (sealing plain)

/-- What the second loop of `mencrypt` has done after some rounds. -/
structure Sealing (image : Image) (own : Nat → Owner) (d v : Nat) (m : Mem σ) (rounds : Nat)
    (now : Mem σ) : Prop where
  recoded : Recoded image own m now
  preserved : Preserved own m now
  queue : now.queue = m.queue
  sealedIn : SealedIn own d m now
  kept : PagesKept own d (fun w => ∃ k < rounds, w = (v + k) % 2 ^ 20) m now
  done : ∀ k < rounds, has (entry now d ((v + k) % 2 ^ 20)) pteE = true

/-- The second loop of `mencrypt` over accessible pages. -/
theorem mencryptPages_spec (rounds : Nat) (owned : Owned image m own) (live : own d = .dir)
    (bound : v < 2 ^ 20) (all : ∀ k < rounds, Accessible m d ((v + k) % 2 ^ 20)) :
    ∃ final, mencryptPages d rounds m (v * pgSize) = .ok final ∧ Recoded image own m final ∧
      Preserved own m final ∧ final.queue = m.queue ∧ SealedIn own d m final ∧
      PagesKept own d (fun w => ∃ k < rounds, w = (v + k) % 2 ^ 20) m final ∧
      ∀ k < rounds, has (entry final d ((v + k) % 2 ^ 20)) pteE = true := by
  have start : Sealing image own d v m 0 m :=
    ⟨.refl owned, .refl own m, rfl, .refl own d m, .refl own d _ m, fun k inside => by omega⟩
  have looped := mencryptPages_loop d rounds (Sealing image own d v m) bound ?_ start
  · obtain ⟨final, ran, held⟩ := looped
    exact ⟨final, ran, held.recoded, held.preserved, held.queue, held.sealedIn, held.kept, held.done⟩
  intro k inside now held
  have page : (v + k) % 2 ^ 20 < 2 ^ 20 := Nat.mod_lt _ (by decide)
  have user := owned.accessible_lt live page (all k inside)
  have here := held.recoded.accessible live user (all k inside)
  obtain ⟨pte, found, -⟩ := exists_pteAt here.1
  refine ⟨pte, found, fun already => ?_, fun plain => ?_⟩
  · refine ⟨held.recoded, held.preserved, held.queue, held.sealedIn, held.kept.widen ?_, ?_⟩
    · rintro w ⟨j, before, rfl⟩
      exact ⟨j, by omega, rfl⟩
    · intro j before
      by_cases last : j = k
      · rw [last]
        exact already
      · exact held.done j (by omega)
  · obtain ⟨final, same, recoded, preserved, queue, sealing, kept, done⟩ :=
      encryptPage_spec held.recoded.owned live user found here plain
    rw [same]
    refine ⟨held.recoded.trans recoded, held.preserved.trans preserved, queue.trans held.queue,
      held.sealedIn.trans sealing, (held.kept.widen ?_).trans (kept.widen ?_), ?_⟩
    · rintro w ⟨j, before, rfl⟩
      exact ⟨j, by omega, rfl⟩
    · rintro w rfl
      exact ⟨k, by omega, rfl⟩
    · intro j before
      by_cases last : j = k
      · rw [last]
        exact done
      · exact sealing.stays live (Nat.mod_lt _ (by decide)) (held.done j (by omega))

/-- `mencrypt`: it dereferences a null pointer, fails and changes nothing, or encrypts every page of
the range without changing a plaintext. -/
theorem mencrypt_spec {va : Nat} (len : Int) (owned : Owned image m own) (live : own d = .dir)
    (bound : va < 2 ^ 32) :
    (mencrypt m d va len = .error .nullDeref ∧
        ∃ k < len.toNat, pteAt m d ((va / pgSize + k) % 2 ^ 20) = none) ∨
      (mencrypt m d va len = .ok (false, m) ∧
        ∃ k < len.toNat, ¬ Accessible m d ((va / pgSize + k) % 2 ^ 20)) ∨
      ∃ final, mencrypt m d va len = .ok (true, final) ∧ Recoded image own m final ∧
        Preserved own m final ∧ final.queue = m.queue ∧ SealedIn own d m final ∧
        PagesKept own d (fun w => ∃ k < len.toNat, w = (va / pgSize + k) % 2 ^ 20) m final ∧
        ∀ k < len.toNat, has (entry final d ((va / pgSize + k) % 2 ^ 20)) pteE = true := by
  have page := page_of_address bound
  rw [mencrypt, show pgRoundDown va = va / pgSize * pgSize by rfl]
  rcases mencryptCheck_spec m d len.toNat page with
    ⟨passed, all⟩ | ⟨failed, witness⟩ | ⟨failed, witness⟩
  · obtain ⟨final, looped, facts⟩ := mencryptPages_spec len.toNat owned live page all
    rw [passed]
    simp only [Outcome.ok_bind, ↓reduceIte, looped]
    exact .inr (.inr ⟨final, rfl, facts⟩)
  · rw [failed]
    exact .inr (.inl ⟨rfl, witness⟩)
  · rw [failed]
    exact .inl ⟨rfl, witness⟩

/-- `mencrypt` of one page, as the eviction of a page calls it. -/
theorem mencrypt_one {va : Nat} (owned : Owned image m own) (live : own d = .dir)
    (bound : va < kernBase) (isMapped : mapped (entry m d (va / pgSize)) = true) :
    ∃ done final, mencrypt m d va 1 = .ok (done, final) ∧ Recoded image own m final ∧
      Preserved own m final ∧ final.queue = m.queue ∧ SealedIn own d m final ∧
      (has (entry final d (va / pgSize)) pteE = true ∨
        has (entry final d (va / pgSize)) pteU = false) := by
  have small := lt_word bound
  have page : ∀ k < (1 : Int).toNat, (va / pgSize + k) % 2 ^ 20 = va / pgSize := by
    intro k inside
    simp only [Int.toNat_one, Nat.lt_one_iff] at inside
    unfold kernBase at bound
    unfold pgSize
    omega
  rcases mencrypt_spec 1 owned live small with
    ⟨-, k, inside, absent⟩ | ⟨failed, k, inside, refused⟩ | ⟨final, passed, facts⟩
  · rw [page k inside] at absent
    obtain ⟨pte, found, -⟩ := exists_pteAt isMapped
    simp [absent] at found
  · rw [page k inside] at refused
    refine ⟨false, m, failed, .refl owned, .refl own m, rfl, .refl own d m, .inr ?_⟩
    rw [Bool.eq_false_iff]
    exact fun user => refused ⟨isMapped, user⟩
  · obtain ⟨recoded, preserved, queue, sealing, -, done⟩ := facts
    refine ⟨true, final, passed, recoded, preserved, queue, sealing, .inl ?_⟩
    have last := done 0 (by decide)
    rwa [page 0 (by decide)] at last

/-! ## Exposure -/

/-- The page is open to user code: present, not encrypted, and accessible. -/
def Exposed (m : Mem σ) (d v : Nat) : Prop :=
  has (entry m d v) pteP = true ∧ has (entry m d v) pteE = false ∧ has (entry m d v) pteU = true

/-- No page has become exposed. -/
def Hides (own : Nat → Owner) (m m' : Mem σ) : Prop :=
  ∀ d v, own d = .dir → v < 2 ^ 20 → Exposed m' d v → Exposed m d v

theorem Hides.trans (first : Hides own m m')
    (second : Hides own m' m'') : Hides own m m'' :=
  fun d v live bound exposed => first d v live bound (second d v live bound exposed)

theorem SealedIn.hides (change : SealedIn own d m m') : Hides own m m' := by
  intro d' v live bound exposed
  rcases change d' v live bound with same | ⟨-, encrypted⟩
  · rwa [Exposed, same] at exposed
  · rw [exposed.2.1] at encrypted
    simp at encrypted

end MemoryEncryption
