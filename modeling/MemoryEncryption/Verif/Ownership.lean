import MemoryEncryption.Kernel.AddressSpace

/-!
# Who owns a frame

A labelling gives every frame one owner. `Owned` ties it to memory: the labels of
page tables and user pages are exactly what the live page directories contain, and
the label `free` is exactly the free list. Since a label is a function of the
frame, two owners of one frame cannot exist, and every effect of the memory code
is a change of labels: taking a frame off the list, linking a page table, mapping
and unmapping a page, freeing. The lemmas of this module are these changes, one
each; the functions of `vm.c` are composed of them.
-/

namespace MemoryEncryption

open Function

variable {σ : Type}

/-- The owner of a frame. -/
inductive Owner where
  /-- Not managed by `kalloc`. -/
  | outside
  /-- On the free list. -/
  | free
  /-- In a local variable of the function that is running. -/
  | held
  /-- A page directory. -/
  | dir
  /-- The page table under an entry of a directory. -/
  | table (pgdir i : Nat)
  /-- A user page of an address space. -/
  | user (pgdir page : Nat)
  /-- The kernel stack of a process slot. -/
  | kstack (slot : Nat)
  /-- A pipe buffer. -/
  | pipe
  deriving DecidableEq, Repr

/-- Owners up to the changes that happen inside one address space. -/
inductive Kind where
  /-- Not managed by `kalloc`. -/
  | outside
  /-- Free, or a page or page table of some address space. -/
  | pool
  /-- In a local variable. -/
  | held
  /-- A page directory. -/
  | dir
  /-- A kernel stack. -/
  | kstack (slot : Nat)
  /-- A pipe buffer. -/
  | pipe
  deriving DecidableEq, Repr

/-- The kind of an owner. -/
def Owner.kind : Owner → Kind
  | .outside => .outside
  | .free => .pool
  | .held => .held
  | .dir => .dir
  | .table _ _ => .pool
  | .user _ _ => .pool
  | .kstack slot => .kstack slot
  | .pipe => .pipe

/-- The kinds of all frames. -/
def kinds (own : Nat → Owner) : Nat → Kind := fun frame => (own frame).kind

/-! ## What a page directory says -/

/-- The page table under a directory entry. -/
def tableOf (m : Mem σ) (pgdir i : Nat) : Option Nat :=
  if has (m.word pgdir i) pteP then some (frameOf (m.word pgdir i)) else none

/-- The address of a page's entry, if its page table exists. -/
def pteAt (m : Mem σ) (pgdir page : Nat) : Option PteAddr :=
  (tableOf m pgdir (page / 1024)).map fun table => ⟨table, page % 1024⟩

/-- A page's entry; zero where its page table does not exist. -/
def entry (m : Mem σ) (pgdir page : Nat) : Word :=
  ((pteAt m pgdir page).map m.get).getD 0

theorem walkpgdir_lookup (m : Mem σ) (pgdir : Nat) {va : Nat} (bound : va < 2 ^ 32) :
    walkpgdir m pgdir va false = (pteAt m pgdir (va / pgSize), m) := by
  have directory : pdx va = va / pgSize / 1024 := by
    unfold pdx pgSize
    omega
  have index : ptx va = va / pgSize % 1024 := by
    unfold ptx pgSize
    rfl
  rw [walkpgdir, pteAt, tableOf, directory, index]
  by_cases present : has (m.word pgdir (va / pgSize / 1024)) pteP = true
  · simp only [present, ↓reduceIte, Option.map_some]
  · simp only [present, Bool.false_eq_true, ↓reduceIte, Option.map_none]

theorem get_pteAt {m : Mem σ} {pgdir v : Nat} {pte : PteAddr} (found : pteAt m pgdir v = some pte) :
    m.get pte = entry m pgdir v := by
  rw [entry, found]
  rfl

theorem page_of_address {va : Nat} (bound : va < 2 ^ 32) : va / pgSize < 2 ^ 20 := by
  unfold pgSize
  omega

theorem lt_word {va : Nat} (bound : va < kernBase) : va < 2 ^ 32 :=
  bound.trans (by decide)

theorem walkpgdir_page (m : Mem σ) (pgdir : Nat) {v : Nat} (bound : v < 2 ^ 20) :
    walkpgdir m pgdir (v * pgSize) false = (pteAt m pgdir v, m) := by
  rw [walkpgdir_lookup m pgdir (by unfold pgSize; omega), Nat.mul_div_cancel v (by decide)]

/-! ## The invariant -/

/-- The labels say what memory holds. -/
structure Owned (image : Image) (m : Mem σ) (own : Nat → Owner) : Prop where
  /-- The free frames are those on the list. -/
  free : ∀ f, f ∈ m.freelist ↔ own f = .free
  /-- No frame is on the list twice. -/
  nodup : m.freelist.Nodup
  /-- A page table in use belongs to the one directory entry that names it. -/
  table : ∀ d i f, own d = .dir → i < 1024 → tableOf m d i = some f → own f = .table d i
  /-- Every page table is in use where its label says. -/
  tableBack : ∀ d i f, own f = .table d i → own d = .dir ∧ i < 1024 ∧ tableOf m d i = some f
  /-- A mapped frame belongs to the one page that maps it. -/
  user : ∀ d v, own d = .dir → v < userPages → mapped (entry m d v) = true →
    own (frameOf (entry m d v)) = .user d v
  /-- Every user page is mapped where its label says. -/
  userBack : ∀ d v f, own f = .user d v →
    own d = .dir ∧ v < userPages ∧ mapped (entry m d v) = true ∧ frameOf (entry m d v) = f
  /-- The entry of a page that is not mapped is zero. -/
  zero : ∀ d v, own d = .dir → v < userPages → mapped (entry m d v) = false → entry m d v = 0
  /-- The kernel half of an address space is closed to the user. -/
  kernel : ∀ d v, own d = .dir → userPages ≤ v → v < 2 ^ 20 → (entry m d v).getLsbD 2 = false
  /-- Managed frames lie between the kernel and the end of memory. -/
  range : ∀ f, own f ≠ .outside → image.endPage ≤ f ∧ f < physTop / pgSize

variable {image : Image} {m m' : Mem σ} {own : Nat → Owner} {d v : Nat}

theorem Owned.pteAt_table (owned : Owned image m own) {pte : PteAddr} (live : own d = .dir)
    (bound : v < 2 ^ 20) (found : pteAt m d v = some pte) :
    own pte.frame = .table d (v / 1024) ∧ pte.index = v % 1024 := by
  obtain ⟨table, present, rfl⟩ := Option.map_eq_some_iff.mp found
  exact ⟨owned.table d (v / 1024) table live (by omega) present, rfl⟩

theorem page_lt (bound : v < userPages) : v < 2 ^ 20 := by
  unfold userPages at bound
  omega

theorem Owned.pteAt_injective (owned : Owned image m own) {d' v' : Nat} {pte : PteAddr}
    (live : own d = .dir) (live' : own d' = .dir) (bound : v < 2 ^ 20) (bound' : v' < 2 ^ 20)
    (found : pteAt m d v = some pte) (found' : pteAt m d' v' = some pte) : d' = d ∧ v' = v := by
  obtain ⟨label, index⟩ := owned.pteAt_table live bound found
  obtain ⟨label', index'⟩ := owned.pteAt_table live' bound' found'
  rw [label'] at label
  injection label with directory upper
  exact ⟨directory, by omega⟩

/-- The labels depend on memory only through the page tables, the mapped frames and the free
list. -/
theorem Owned.of_view (owned : Owned image m own)
    (tables : ∀ d i, own d = .dir → i < 1024 → tableOf m' d i = tableOf m d i)
    (maps : ∀ d v, own d = .dir → v < userPages → mapped (entry m' d v) = mapped (entry m d v))
    (frames : ∀ d v, own d = .dir → v < userPages → mapped (entry m d v) = true →
      frameOf (entry m' d v) = frameOf (entry m d v))
    (zeros : ∀ d v, own d = .dir → v < userPages → entry m d v = 0 → entry m' d v = 0)
    (kernel : ∀ d v, own d = .dir → userPages ≤ v → v < 2 ^ 20 →
      (entry m' d v).getLsbD 2 = (entry m d v).getLsbD 2)
    (list : m'.freelist = m.freelist) : Owned image m' own where
  free f := by rw [list]; exact owned.free f
  nodup := by rw [list]; exact owned.nodup
  table d i f live bound found := owned.table d i f live bound (by rwa [← tables d i live bound])
  tableBack d i f label := by
    obtain ⟨live, bound, found⟩ := owned.tableBack d i f label
    exact ⟨live, bound, by rwa [tables d i live bound]⟩
  user d v live bound isMapped := by
    rw [maps d v live bound] at isMapped
    rw [frames d v live bound isMapped]
    exact owned.user d v live bound isMapped
  userBack d v f label := by
    obtain ⟨live, bound, isMapped, same⟩ := owned.userBack d v f label
    exact ⟨live, bound, by rwa [maps d v live bound], by rwa [frames d v live bound isMapped]⟩
  zero d v live bound unmapped := by
    rw [maps d v live bound] at unmapped
    exact zeros d v live bound (owned.zero d v live bound unmapped)
  kernel d v live lower upper := by
    rw [kernel d v live lower upper]
    exact owned.kernel d v live lower upper
  range := owned.range

/-- Where the page directory and the page tables of a live address space agree, so do its lookups. -/
theorem Owned.lookups_eq (owned : Owned image m own) (m' : Mem σ) (live : own d = .dir)
    (directory : ∀ i, m'.word d i = m.word d i)
    (tables : ∀ f j i, own f = .table d j → m'.word f i = m.word f i) :
    (∀ i, tableOf m' d i = tableOf m d i) ∧ (∀ v, pteAt m' d v = pteAt m d v) ∧
      ∀ v < 2 ^ 20, entry m' d v = entry m d v := by
  have same : ∀ i, tableOf m' d i = tableOf m d i := by
    intro i
    rw [tableOf, tableOf, directory]
  have addresses : ∀ v, pteAt m' d v = pteAt m d v := by
    intro v
    rw [pteAt, pteAt, same]
  refine ⟨same, addresses, fun v bound => ?_⟩
  rw [entry, entry, addresses]
  cases found : pteAt m d v with
  | none => rfl
  | some pte =>
    obtain ⟨label, -⟩ := owned.pteAt_table live bound found
    simp [Mem.get, tables pte.frame (v / 1024) pte.index label]

/-- A frame that page table lookups read: a directory or a page table. -/
def Owner.Structural (owner : Owner) : Prop := owner = .dir ∨ ∃ d i, owner = .table d i

theorem Owned.views (owned : Owned image m own)
    (words : ∀ f i, (own f).Structural → m'.word f i = m.word f i) (d : Nat) (live : own d = .dir) :
    (∀ i, tableOf m' d i = tableOf m d i) ∧ (∀ v, pteAt m' d v = pteAt m d v) ∧
      ∀ v < 2 ^ 20, entry m' d v = entry m d v :=
  owned.lookups_eq m' live (fun i => words d i (.inl live))
    (fun f j i label => words f i (.inr ⟨d, j, label⟩))

theorem Owned.of_structural (owned : Owned image m own)
    (words : ∀ f i, (own f).Structural → m'.word f i = m.word f i)
    (list : m'.freelist = m.freelist) : Owned image m' own := by
  have views := owned.views words
  apply owned.of_view (fun d i live _ => (views d live).1 i)
  · intro d v live bound
    rw [(views d live).2.2 v (page_lt bound)]
  · intro d v live bound _
    rw [(views d live).2.2 v (page_lt bound)]
  · intro d v live bound unmapped
    rwa [(views d live).2.2 v (page_lt bound)]
  · intro d v live _ bound
    rw [(views d live).2.2 v bound]
  · exact list

/-! ## Changes of labels -/

/-- An owner outside every address space, of a frame that `kalloc` manages. -/
def Owner.loose : Owner → Bool
  | .free | .held | .kstack _ | .pipe => true
  | .outside | .dir | .table _ _ | .user _ _ => false

variable {f : Nat} {o : Owner}

/-- Changing a label is invisible to every label that is neither the old nor the new one. -/
theorem update_eq_iff {g : Nat} {label : Owner} (old : own f ≠ label) (new : o ≠ label) :
    update own f o g = label ↔ own g = label := by
  by_cases same : g = f
  · subst same
    simp [old, new]
  · rw [update_of_ne same]

theorem lookups_of_words (words : m'.word = m.word) :
    tableOf m' = tableOf m ∧ pteAt m' = pteAt m ∧ entry m' = entry m := by
  have tables : tableOf m' = tableOf m := by
    funext d i
    rw [tableOf, tableOf, words]
  have addresses : pteAt m' = pteAt m := by
    funext d v
    rw [pteAt, pteAt, tables]
  refine ⟨tables, addresses, ?_⟩
  funext d v
  rw [entry, entry, addresses]
  cases pteAt m d v with
  | none => rfl
  | some pte => simp [Mem.get, words]

/-- A frame outside every address space changes hands. -/
theorem Owned.relabel (owned : Owned image m own) (before : (own f).loose = true)
    (after : o.loose = true) (words : m'.word = m.word)
    (listed : ∀ g, g ∈ m'.freelist ↔ update own f o g = .free) (nodup : m'.freelist.Nodup) :
    Owned image m' (update own f o) := by
  obtain ⟨tables, -, entries⟩ := lookups_of_words words
  have same : ∀ {g : Nat} {label : Owner}, label.loose = false →
      (update own f o g = label ↔ own g = label) := by
    intro g label tight
    refine update_eq_iff ?_ ?_
    · rintro rfl
      simp [before] at tight
    · rintro rfl
      simp [after] at tight
  refine ⟨listed, nodup, ?_, ?_, ?_, ?_, ?_, ?_, ?_⟩
  · intro d i t live
    rw [tables, same rfl]
    exact owned.table d i t ((same rfl).mp live)
  · intro d i t label
    rw [tables, same rfl]
    exact owned.tableBack d i t ((same rfl).mp label)
  · intro d v live
    rw [entries, same rfl]
    exact owned.user d v ((same rfl).mp live)
  · intro d v t label
    rw [entries, same rfl]
    exact owned.userBack d v t ((same rfl).mp label)
  · intro d v live
    rw [entries]
    exact owned.zero d v ((same rfl).mp live)
  · intro d v live
    rw [entries]
    exact owned.kernel d v ((same rfl).mp live)
  · intro g inside
    refine owned.range g fun outer => inside ?_
    rwa [same rfl]

theorem Owned.take (owned : Owned image m own) (loose : o.loose = true) (used : o ≠ .free)
    {rest : List Nat} (oom : List Bool) (shape : m.freelist = f :: rest) :
    own f = .free ∧
      Owned image { m with oom := oom, freelist := rest } (update own f o) := by
  have label : own f = .free := (owned.free f).mp (by simp [shape])
  have distinct := owned.nodup
  rw [shape, List.nodup_cons] at distinct
  refine ⟨label, owned.relabel (by rw [label]; rfl) loose rfl (fun g => ?_) distinct.2⟩
  by_cases same : g = f
  · subst same
    simp [distinct.1, used]
  · rw [update_of_ne same, ← owned.free g, shape]
    simp [same]

theorem Owned.fill (owned : Owned image m own) (loose : ¬ (own f).Structural) (page : Nat → Word) :
    Owned image (m.setPage f page) own := by
  refine owned.of_structural (fun g i structural => ?_) rfl
  have distinct : g ≠ f := by
    rintro rfl
    exact loose structural
  simp [distinct]

/-- `kfree` returns a frame that is outside every address space to the list. -/
theorem Owned.release (owned : Owned image m own) (loose : (own f).loose = true)
    (used : own f ≠ .free) :
    ∃ final, kfree image m f = .ok final ∧ final.queue = m.queue ∧
      (∀ g, g ≠ f → final.word g = m.word g) ∧
      Owned image final (update own f .free) := by
  have managed : own f ≠ .outside := by
    intro outer
    simp [outer, Owner.loose] at loose
  obtain ⟨lower, upper⟩ := owned.range f managed
  refine ⟨_, kfree_returns m lower upper, rfl, ?_, ?_⟩
  · intro g distinct
    funext i
    simp [distinct]
  · have filled : Owned image (m.setPage f fun _ => 0x01010101) own := by
      apply owned.fill
      rintro (isDir | ⟨d, i, isTable⟩)
      · simp [isDir, Owner.loose] at loose
      · simp [isTable, Owner.loose] at loose
    refine filled.relabel loose rfl rfl (fun g => ?_) ?_
    · by_cases same : g = f
      · subst same
        simp
      · rw [update_of_ne same, ← owned.free g]
        simp [same]
    · refine List.nodup_cons.mpr ⟨fun listed => used ?_, owned.nodup⟩
      exact (owned.free f).mp listed

/-- A word of a page table entry changes no lookup but its own. -/
theorem Owned.set_lookups (owned : Owned image m own) {pte : PteAddr} (live : own d = .dir)
    (bound : v < 2 ^ 20) (found : pteAt m d v = some pte) (word : Word) :
    (∀ d' i, own d' = .dir → tableOf (m.set pte word) d' i = tableOf m d' i) ∧
    (∀ d' v', own d' = .dir → pteAt (m.set pte word) d' v' = pteAt m d' v') ∧
    ∀ d' v', own d' = .dir → v' < 2 ^ 20 →
      entry (m.set pte word) d' v' = if d' = d ∧ v' = v then word else entry m d' v' := by
  obtain ⟨label, -⟩ := owned.pteAt_table live bound found
  have tables : ∀ d' i, own d' = .dir → tableOf (m.set pte word) d' i = tableOf m d' i := by
    intro d' i live'
    have distinct : d' ≠ pte.frame := by
      rintro rfl
      simp [label] at live'
    simp [tableOf, distinct]
  have addresses : ∀ d' v', own d' = .dir → pteAt (m.set pte word) d' v' = pteAt m d' v' := by
    intro d' v' live'
    rw [pteAt, pteAt, tables d' _ live']
  refine ⟨tables, addresses, fun d' v' live' bound' => ?_⟩
  rw [entry, addresses d' v' live']
  cases found' : pteAt m d' v' with
  | none =>
    have other : ¬ (d' = d ∧ v' = v) := by
      rintro ⟨rfl, rfl⟩
      simp [found] at found'
    rw [if_neg other, entry, found']
    rfl
  | some pte' =>
    rw [entry, found']
    by_cases same : pte' = pte
    · subst same
      rw [if_pos (owned.pteAt_injective live live' bound bound' found found')]
      simp [Mem.get]
    · have other : ¬ (d' = d ∧ v' = v) := by
        rintro ⟨rfl, rfl⟩
        exact same (Option.some.inj (found'.symm.trans found))
      have distinct : ¬ (pte'.frame = pte.frame ∧ pte'.index = pte.index) := by
        rintro ⟨frames, indices⟩
        exact same (PteAddr.mk.injEq .. ▸ ⟨frames, indices⟩)
      rw [if_neg other]
      simp [Mem.get, distinct]

/-- Linking an empty page table into a directory changes no entry. -/
theorem Owned.link_lookups (owned : Owned image m own) {i t : Nat} (live : own d = .dir)
    (absent : tableOf m d i = none) (held : own t = .held) (clean : ∀ j < 1024, m.word t j = 0)
    {word : Word} (present : has word pteP = true) (leads : frameOf word = t) :
    (∀ d' j, own d' = .dir → tableOf (m.set ⟨d, i⟩ word) d' j =
      if d' = d ∧ j = i then some t else tableOf m d' j) ∧
    ∀ d' v, own d' = .dir → v < 2 ^ 20 → entry (m.set ⟨d, i⟩ word) d' v = entry m d' v := by
  have tables : ∀ d' j, own d' = .dir → tableOf (m.set ⟨d, i⟩ word) d' j =
      if d' = d ∧ j = i then some t else tableOf m d' j := by
    intro d' j live'
    by_cases same : d' = d ∧ j = i
    · obtain ⟨rfl, rfl⟩ := same
      simp [tableOf, present, leads, -has_pteP]
    · rw [if_neg same]
      simp [tableOf, same, -has_pteP]
  refine ⟨tables, fun d' v live' bound => ?_⟩
  rw [entry, pteAt, tables d' _ live']
  by_cases same : d' = d ∧ v / 1024 = i
  · -- the new table is empty, and there was none before
    obtain ⟨rfl, rfl⟩ := same
    have distinct : t ≠ d' := by
      rintro rfl
      simp [held] at live'
    simp [Mem.get, distinct, entry, pteAt, absent, clean (v % 1024) (by omega)]
  · rw [if_neg same, entry]
    rw [← pteAt]
    cases found : pteAt m d' v with
    | none => rfl
    | some pte =>
      obtain ⟨label, -⟩ := owned.pteAt_table live' bound found
      have distinct : pte.frame ≠ d := by
        rintro rfl
        simp [label] at live
      simp [Mem.get, distinct]

/-- Linking gives the page table to the directory entry. -/
theorem Owned.link (owned : Owned image m own) {i t : Nat} (live : own d = .dir) (bound : i < 1024)
    (absent : tableOf m d i = none) (held : own t = .held) (clean : ∀ j < 1024, m.word t j = 0)
    {word : Word} (present : has word pteP = true) (leads : frameOf word = t) :
    Owned image (m.set ⟨d, i⟩ word) (update own t (.table d i)) := by
  obtain ⟨tables, entries⟩ := owned.link_lookups live absent held clean present leads
  have other : ∀ {g : Nat} {label : Owner}, .held ≠ label → .table d i ≠ label →
      (update own t (.table d i) g = label ↔ own g = label) :=
    fun old new => update_eq_iff (held ▸ old) new
  refine ⟨?_, owned.nodup, ?_, ?_, ?_, ?_, ?_, ?_, ?_⟩
  · intro f
    rw [other (by simp) (by simp)]
    exact owned.free f
  · intro d' j f label inside found
    rw [other (by simp) (by simp)] at label
    rw [tables d' j label] at found
    split at found
    · rename_i same
      obtain ⟨rfl, rfl⟩ := same
      cases found
      simp
    · have before := owned.table d' j f label inside found
      have distinct : f ≠ t := by
        rintro rfl
        simp [before] at held
      rwa [update_of_ne distinct]
  · intro d' j f label
    rw [other (by simp) (by simp)]
    by_cases same : f = t
    · subst same
      simp only [update_self, Owner.table.injEq] at label
      obtain ⟨rfl, rfl⟩ := label
      exact ⟨live, bound, by simp [tables _ _ live]⟩
    · rw [update_of_ne same] at label
      obtain ⟨live', inside, found⟩ := owned.tableBack d' j f label
      refine ⟨live', inside, ?_⟩
      rw [tables _ _ live', if_neg]
      · exact found
      · rintro ⟨rfl, rfl⟩
        simp [absent] at found
  · intro d' v label inside isMapped
    rw [other (by simp) (by simp)] at label ⊢
    rw [entries d' v label (page_lt inside)] at isMapped ⊢
    exact owned.user d' v label inside isMapped
  · intro d' v f label
    rw [other (by simp) (by simp)] at label ⊢
    obtain ⟨live', inside, facts⟩ := owned.userBack d' v f label
    rw [entries d' v live' (page_lt inside)]
    exact ⟨live', inside, facts⟩
  · intro d' v label inside
    rw [other (by simp) (by simp)] at label
    rw [entries d' v label (page_lt inside)]
    exact owned.zero d' v label inside
  · intro d' v label lower upper
    rw [other (by simp) (by simp)] at label
    rw [entries d' v label upper]
    exact owned.kernel d' v label lower upper
  · intro f label
    refine owned.range f fun outer => label ?_
    rwa [other (by simp) (by simp)]

theorem Owned.map (owned : Owned image m own) {pte : PteAddr} (live : own d = .dir)
    (bound : v < userPages) (found : pteAt m d v = some pte) (vacant : mapped (entry m d v) = false)
    (held : own f = .held) {word : Word} (isMapped : mapped word = true) (leads : frameOf word = f) :
    Owned image (m.set pte word) (update own f (.user d v)) := by
  obtain ⟨tables, -, entries⟩ := owned.set_lookups live (page_lt bound) found word
  have other : ∀ {g : Nat} {label : Owner}, .held ≠ label → .user d v ≠ label →
      (update own f (.user d v) g = label ↔ own g = label) :=
    fun old new => update_eq_iff (held ▸ old) new
  refine ⟨?_, owned.nodup, ?_, ?_, ?_, ?_, ?_, ?_, ?_⟩
  · intro g
    rw [other (by simp) (by simp)]
    exact owned.free g
  · intro d' j t label inside present
    rw [other (by simp) (by simp)] at label ⊢
    rw [tables d' j label] at present
    exact owned.table d' j t label inside present
  · intro d' j t label
    rw [other (by simp) (by simp)] at label ⊢
    obtain ⟨live', inside, present⟩ := owned.tableBack d' j t label
    exact ⟨live', inside, by rwa [tables d' j live']⟩
  · intro d' v' label inside present
    rw [other (by simp) (by simp)] at label
    rw [entries d' v' label (page_lt inside)] at present ⊢
    split
    · rename_i same
      obtain ⟨rfl, rfl⟩ := same
      simp [leads]
    · rename_i apart
      rw [if_neg apart] at present
      have before := owned.user d' v' label inside present
      rwa [update_of_ne]
      intro same
      simp [same, held] at before
  · intro d' v' g label
    rw [other (by simp) (by simp)]
    by_cases same : g = f
    · subst same
      simp only [update_self, Owner.user.injEq] at label
      obtain ⟨rfl, rfl⟩ := label
      rw [entries _ _ live (page_lt bound)]
      simp [live, bound, isMapped, leads, -mapped_iff]
    · rw [update_of_ne same] at label
      obtain ⟨live', inside, present, leads'⟩ := owned.userBack d' v' g label
      have apart : ¬ (d' = d ∧ v' = v) := by
        rintro ⟨rfl, rfl⟩
        simp [vacant, -mapped_iff] at present
      rw [entries d' v' live' (page_lt inside), if_neg apart]
      exact ⟨live', inside, present, leads'⟩
  · intro d' v' label inside absent
    rw [other (by simp) (by simp)] at label
    rw [entries d' v' label (page_lt inside)] at absent ⊢
    split at absent
    · simp [isMapped, -mapped_iff] at absent
    · rename_i apart
      rw [if_neg apart]
      exact owned.zero d' v' label inside absent
  · intro d' v' label lower upper
    rw [other (by simp) (by simp)] at label
    rw [entries d' v' label upper, if_neg (by omega)]
    exact owned.kernel d' v' label lower upper
  · intro g label
    refine owned.range g fun outer => label ?_
    rwa [other (by simp) (by simp)]

/-- Unmapping a page leaves its frame with the caller. -/
theorem Owned.unmap (owned : Owned image m own) {pte : PteAddr} (live : own d = .dir)
    (bound : v < userPages) (found : pteAt m d v = some pte) (label : own f = .user d v) :
    Owned image (m.set pte 0) (update own f .held) := by
  obtain ⟨tables, -, entries⟩ := owned.set_lookups live (page_lt bound) found 0
  have other : ∀ {g : Nat} {label : Owner}, .user d v ≠ label → .held ≠ label →
      (update own f .held g = label ↔ own g = label) :=
    fun old new => update_eq_iff (label ▸ old) new
  refine ⟨?_, owned.nodup, ?_, ?_, ?_, ?_, ?_, ?_, ?_⟩
  · intro g
    rw [other (by simp) (by simp)]
    exact owned.free g
  · intro d' j t isDir inside present
    rw [other (by simp) (by simp)] at isDir ⊢
    rw [tables d' j isDir] at present
    exact owned.table d' j t isDir inside present
  · intro d' j t isTable
    rw [other (by simp) (by simp)] at isTable ⊢
    obtain ⟨live', inside, present⟩ := owned.tableBack d' j t isTable
    exact ⟨live', inside, by rwa [tables d' j live']⟩
  · intro d' v' isDir inside present
    rw [other (by simp) (by simp)] at isDir
    rw [entries d' v' isDir (page_lt inside)] at present ⊢
    split at present
    · simp at present
    · rename_i apart
      rw [if_neg apart]
      have before := owned.user d' v' isDir inside present
      rwa [update_of_ne]
      intro same
      rw [same, label] at before
      injection before with left right
      exact apart ⟨left.symm, right.symm⟩
  · intro d' v' g isUser
    rw [other (by simp) (by simp)]
    have distinct : g ≠ f := by
      rintro rfl
      simp at isUser
    rw [update_of_ne distinct] at isUser
    obtain ⟨live', inside, present, leads⟩ := owned.userBack d' v' g isUser
    have apart : ¬ (d' = d ∧ v' = v) := by
      rintro ⟨rfl, rfl⟩
      exact distinct (leads.symm.trans (owned.userBack d' v' f label).2.2.2)
    rw [entries d' v' live' (page_lt inside), if_neg apart]
    exact ⟨live', inside, present, leads⟩
  · intro d' v' isDir inside absent
    rw [other (by simp) (by simp)] at isDir
    rw [entries d' v' isDir (page_lt inside)] at absent ⊢
    split
    · rfl
    · rename_i apart
      rw [if_neg apart] at absent
      exact owned.zero d' v' isDir inside absent
  · intro d' v' isDir lower upper
    rw [other (by simp) (by simp)] at isDir
    rw [entries d' v' isDir upper, if_neg (by omega)]
    exact owned.kernel d' v' isDir lower upper
  · intro g outer
    refine owned.range g fun inner => outer ?_
    rwa [other (by simp) (by simp)]

theorem Owned.setFlags (owned : Owned image m own) {pte : PteAddr} (live : own d = .dir)
    (bound : v < userPages) (found : pteAt m d v = some pte) {word : Word}
    (before : mapped (entry m d v) = true) (after : mapped word = true)
    (leads : frameOf word = frameOf (entry m d v)) : Owned image (m.set pte word) own := by
  obtain ⟨tables, -, entries⟩ := owned.set_lookups live (page_lt bound) found word
  refine owned.of_view (fun d' i live' _ => tables d' i live') ?_ ?_ ?_ ?_ rfl
  · intro d' v' live' inside
    rw [entries d' v' live' (page_lt inside)]
    split
    · rename_i same
      rw [after, same.1, same.2, before]
    · rfl
  · intro d' v' live' inside _
    rw [entries d' v' live' (page_lt inside)]
    split
    · rename_i same
      rw [leads, same.1, same.2]
    · rfl
  · intro d' v' live' inside absent
    rw [entries d' v' live' (page_lt inside)]
    split
    · rename_i same
      rw [same.1, same.2] at absent
      simp [absent] at before
    · exact absent
  · intro d' v' live' lower upper
    rw [entries d' v' live' upper, if_neg (by omega)]

theorem Owned.setKernel (owned : Owned image m own) {pte : PteAddr} (live : own d = .dir)
    (bound : v < 2 ^ 20) (kernel : userPages ≤ v) (found : pteAt m d v = some pte) {word : Word}
    (closed : word.getLsbD 2 = false) : Owned image (m.set pte word) own := by
  obtain ⟨tables, -, entries⟩ := owned.set_lookups live bound found word
  have same : ∀ d' v', own d' = .dir → v' < userPages →
      entry (m.set pte word) d' v' = entry m d' v' := by
    intro d' v' live' inside
    rw [entries d' v' live' (page_lt inside), if_neg (by omega)]
  refine owned.of_view (fun d' i live' _ => tables d' i live') ?_ ?_ ?_ ?_ rfl
  · intro d' v' live' inside
    rw [same d' v' live' inside]
  · intro d' v' live' inside _
    rw [same d' v' live' inside]
  · intro d' v' live' inside absent
    rwa [same d' v' live' inside]
  · intro d' v' live' lower upper
    rw [entries d' v' live' upper]
    split
    · rename_i here
      rw [closed, here.1, here.2, owned.kernel d v live kernel bound]
    · rfl

/-- An empty page becomes the directory of an address space without pages. -/
theorem Owned.newDir (owned : Owned image m own) (held : own d = .held)
    (clean : ∀ i < 1024, m.word d i = 0) :
    Owned image m (update own d .dir) ∧ (∀ i < 1024, tableOf m d i = none) ∧
      ∀ v < 2 ^ 20, entry m d v = 0 := by
  have tables : ∀ i < 1024, tableOf m d i = none := by
    intro i bound
    simp [tableOf, clean i bound]
  have entries : ∀ v < 2 ^ 20, entry m d v = 0 := by
    intro v bound
    simp [entry, pteAt, tables (v / 1024) (by omega)]
  refine ⟨?_, tables, entries⟩
  have other : ∀ {g : Nat} {label : Owner}, .held ≠ label → .dir ≠ label →
      (update own d .dir g = label ↔ own g = label) :=
    fun old new => update_eq_iff (held ▸ old) new
  have isDir : ∀ g, update own d .dir g = .dir ↔ g = d ∨ own g = .dir := by
    intro g
    by_cases same : g = d
    · simp [same]
    · simp [same]
  refine ⟨?_, owned.nodup, ?_, ?_, ?_, ?_, ?_, ?_, ?_⟩
  · intro g
    rw [other (by simp) (by simp)]
    exact owned.free g
  · intro d' j t label inside present
    rw [other (by simp) (by simp)]
    rcases (isDir d').mp label with rfl | live
    · simp [tables j inside] at present
    · exact owned.table d' j t live inside present
  · intro d' j t label
    rw [other (by simp) (by simp)] at label
    obtain ⟨live, facts⟩ := owned.tableBack d' j t label
    exact ⟨(isDir d').mpr (.inr live), facts⟩
  · intro d' v label inside present
    rw [other (by simp) (by simp)]
    rcases (isDir d').mp label with rfl | live
    · simp [entries v (page_lt inside)] at present
    · exact owned.user d' v live inside present
  · intro d' v g label
    rw [other (by simp) (by simp)] at label
    obtain ⟨live, facts⟩ := owned.userBack d' v g label
    exact ⟨(isDir d').mpr (.inr live), facts⟩
  · intro d' v label inside absent
    rcases (isDir d').mp label with rfl | live
    · exact entries v (page_lt inside)
    · exact owned.zero d' v live inside absent
  · intro d' v label lower upper
    rcases (isDir d').mp label with rfl | live
    · rw [entries v upper]
      decide
    · exact owned.kernel d' v live lower upper
  · intro g outer
    refine owned.range g fun inner => outer ?_
    rwa [other (by simp) (by simp)]

/-- The labels once the directory `d` and its page tables are in the hands of `freevm`, which has
freed the tables below `i`. -/
def retired (own : Nat → Owner) (d i : Nat) : Nat → Owner := fun f =>
  match own f with
  | .dir => if f = d then .held else .dir
  | .table d' j => if d' = d then (if j < i then .free else .held) else .table d' j
  | label => label

/-- A directory without user pages can be taken apart. -/
theorem Owned.retire (owned : Owned image m own) (live : own d = .dir)
    (empty : ∀ v < userPages, mapped (entry m d v) = false) : Owned image m (retired own d 0) := by
  have isDir : ∀ g, retired own d 0 g = .dir ↔ own g = .dir ∧ g ≠ d := by
    intro g
    unfold retired
    cases label : own g <;> simp
    split <;> simp
  have isTable : ∀ g d' j, retired own d 0 g = .table d' j ↔ own g = .table d' j ∧ d' ≠ d := by
    intro g d' j
    unfold retired
    cases label : own g <;> simp
    · split <;> simp
    · rename_i d'' k
      by_cases same : d'' = d
      · simp only [same, ↓reduceIte, reduceCtorEq, false_iff, not_and, not_not]
        rintro ⟨rfl, -⟩
        rfl
      · simp only [same, ↓reduceIte, Owner.table.injEq]
        constructor
        · rintro ⟨rfl, rfl⟩
          exact ⟨⟨rfl, rfl⟩, same⟩
        · exact fun facts => facts.1
  have isUser : ∀ g d' v, retired own d 0 g = .user d' v ↔ own g = .user d' v := by
    intro g d' v
    unfold retired
    cases label : own g <;> simp <;> split <;> simp
  have isFree : ∀ g, retired own d 0 g = .free ↔ own g = .free := by
    intro g
    unfold retired
    cases label : own g <;> simp <;> split <;> simp
  have isOutside : ∀ g, retired own d 0 g = .outside ↔ own g = .outside := by
    intro g
    unfold retired
    cases label : own g <;> simp <;> split <;> simp
  refine ⟨?_, owned.nodup, ?_, ?_, ?_, ?_, ?_, ?_, ?_⟩
  · intro g
    rw [isFree]
    exact owned.free g
  · intro d' j t label inside present
    obtain ⟨live', distinct⟩ := (isDir d').mp label
    exact (isTable t d' j).mpr ⟨owned.table d' j t live' inside present, distinct⟩
  · intro d' j t label
    obtain ⟨before, distinct⟩ := (isTable t d' j).mp label
    obtain ⟨live', facts⟩ := owned.tableBack d' j t before
    exact ⟨(isDir d').mpr ⟨live', distinct⟩, facts⟩
  · intro d' v label inside present
    rw [isUser]
    exact owned.user d' v ((isDir d').mp label).1 inside present
  · intro d' v g label
    obtain ⟨live', inside, present, leads⟩ := owned.userBack d' v g ((isUser g d' v).mp label)
    refine ⟨(isDir d').mpr ⟨live', ?_⟩, inside, present, leads⟩
    rintro rfl
    rw [empty v inside] at present
    simp at present
  · intro d' v label
    exact owned.zero d' v ((isDir d').mp label).1
  · intro d' v label
    exact owned.kernel d' v ((isDir d').mp label).1
  · intro g outer
    exact owned.range g fun inner => outer ((isOutside g).mpr inner)

end MemoryEncryption
