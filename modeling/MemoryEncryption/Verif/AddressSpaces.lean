import Mathlib.Data.Finset.Card
import MemoryEncryption.Verif.Ownership

/-!
# Changing and freeing an address space

Specifications of `walkpgdir`, `mappages`, `deallocuvm` and `freevm`. Each says
which labels change kind, that every other address space keeps its frames and their
contents, and what the entries of the one address space are afterwards. Callers use
these specifications and never look into the code again.
-/

namespace MemoryEncryption

open Function Outcome

variable {σ : Type} {image : Image} {m m' m'' : Mem σ} {own own' own'' : Nat → Owner}

/-- The address space a frame is part of, named by its directory. -/
def space (own : Nat → Owner) (f : Nat) : Option Nat :=
  match own f with
  | .dir => some f
  | .table d _ => some d
  | .user d _ => some d
  | _ => none

theorem kinds_update (own : Nat → Owner) (f : Nat) (o : Owner) :
    kinds (update own f o) = update (kinds own) f o.kind := by
  funext g
  by_cases same : g = f
  · subst same
    simp [kinds]
  · simp [kinds, same]

variable {f : Nat}

theorem kinds_update_self {o : Owner} (same : (own f).kind = o.kind) :
    kinds (update own f o) = kinds own := by
  rw [kinds_update, update_eq_self_iff]
  exact same.symm

theorem kinds_label (same : kinds own' f = kinds own f) :
    (own f = .dir ↔ own' f = .dir) ∧ (own f = .held ↔ own' f = .held) := by
  simp only [kinds] at same
  cases before : own f <;> cases after : own' f <;> simp [before, after, Owner.kind] at same ⊢

/-- Every address space but `d` keeps its frames and their contents. -/
def Apart (d : Nat) (m : Mem σ) (own : Nat → Owner) (m' : Mem σ) (own' : Nat → Owner) : Prop :=
  ∀ f d', space own f = some d' → d' ≠ d → own' f = own f ∧ m'.word f = m.word f

theorem Apart.refl (d : Nat) (m : Mem σ) (own : Nat → Owner) : Apart d m own m own :=
  fun _ _ _ _ => ⟨rfl, rfl⟩

variable {d : Nat}

theorem Apart.trans (first : Apart d m own m' own') (second : Apart d m' own' m'' own'') :
    Apart d m own m'' own'' := by
  intro f d' part distinct
  obtain ⟨label, words⟩ := first f d' part distinct
  obtain ⟨label', words'⟩ := second f d' (by rw [space, label]; exact part) distinct
  exact ⟨label'.trans label, words'.trans words⟩

/-- A change of the label and the contents of frames that belong to `d` or to nobody. -/
theorem Apart.of_change (changed : Nat → Prop)
    (inside : ∀ f, changed f → space own f = none ∨ space own f = some d)
    (labels : ∀ f, ¬ changed f → own' f = own f) (words : ∀ f, ¬ changed f → m'.word f = m.word f) :
    Apart d m own m' own' := by
  intro f d' part distinct
  have unchanged : ¬ changed f := by
    intro touched
    rcases inside f touched with none | own
    · simp [none] at part
    · rw [own] at part
      exact distinct (Option.some.inj part).symm
  exact ⟨labels f unchanged, words f unchanged⟩

theorem Apart.lookups {d' : Nat} (apart : Apart d m own m' own') (owned : Owned image m own)
    (live : own d' = .dir) (distinct : d' ≠ d) :
    own' d' = .dir ∧ (∀ v, pteAt m' d' v = pteAt m d' v) ∧
      (∀ v < 2 ^ 20, entry m' d' v = entry m d' v) ∧
      ∀ f v, own f = .user d' v → own' f = .user d' v ∧ m'.word f = m.word f := by
  obtain ⟨label, words⟩ := apart d' d' (by simp [space, live]) distinct
  have tables : ∀ f j i, own f = .table d' j → m'.word f i = m.word f i := by
    intro f j i isTable
    rw [(apart f d' (by simp [space, isTable]) distinct).2]
  obtain ⟨-, addresses, entries⟩ := owned.lookups_eq m' live (fun i => by rw [words]) tables
  refine ⟨label.trans live, addresses, entries, ?_⟩
  intro f v isUser
  obtain ⟨same, contents⟩ := apart f d' (by simp [space, isUser]) distinct
  exact ⟨same.trans isUser, contents⟩

/-- The address space `d` changes at pages from `low` up to `high` only. -/
structure Within (image : Image) (d low high : Nat) (m : Mem σ) (own : Nat → Owner) (m' : Mem σ)
    (own' : Nat → Owner) : Prop where
  owned : Owned image m' own'
  live : own' d = .dir
  apart : Apart d m own m' own'
  tables : ∀ i t, i < 1024 → tableOf m d i = some t → tableOf m' d i = some t
  entries : ∀ v < 2 ^ 20, v < low ∨ high ≤ v → entry m' d v = entry m d v
  contents : ∀ f v, v < low ∨ high ≤ v → own f = .user d v →
    own' f = .user d v ∧ m'.word f = m.word f

theorem Within.refl (low high : Nat) (owned : Owned image m own) (live : own d = .dir) :
    Within image d low high m own m own :=
  ⟨owned, live, .refl d m own, fun _ _ _ found => found, fun _ _ _ => rfl,
    fun _ _ _ label => ⟨label, rfl⟩⟩

variable {low high : Nat}

theorem Within.trans (first : Within image d low high m own m' own')
    (second : Within image d low high m' own' m'' own'') :
    Within image d low high m own m'' own'' where
  owned := second.owned
  live := second.live
  apart := first.apart.trans second.apart
  tables i t bound found := second.tables i t bound (first.tables i t bound found)
  entries v bound outside :=
    (second.entries v bound outside).trans (first.entries v bound outside)
  contents f v outside label := by
    obtain ⟨label', words⟩ := first.contents f v outside label
    obtain ⟨label'', words'⟩ := second.contents f v outside label'
    exact ⟨label'', words'.trans words⟩

theorem Within.widen {low' high' : Nat} (change : Within image d low high m own m' own')
    (lower : low' ≤ low ∨ high ≤ low) (upper : high ≤ high' ∨ high ≤ low) :
    Within image d low' high' m own m' own' where
  owned := change.owned
  live := change.live
  apart := change.apart
  tables := change.tables
  entries v bound outside := change.entries v bound (by omega)
  contents f v outside := change.contents f v (by omega)

variable {v : Nat}

theorem exists_pteAt (isMapped : mapped (entry m d v) = true) :
    ∃ pte, pteAt m d v = some pte ∧ m.get pte = entry m d v := by
  cases found : pteAt m d v with
  | none => simp [entry, found] at isMapped
  | some pte => exact ⟨pte, rfl, by simp [entry, found]⟩

theorem Within.pteAt_eq {pte : PteAddr} (change : Within image d low high m own m' own')
    (bound : v < 2 ^ 20) (found : pteAt m d v = some pte) : pteAt m' d v = some pte := by
  obtain ⟨t, present, rfl⟩ := Option.map_eq_some_iff.mp found
  rw [pteAt, change.tables (v / 1024) t (by omega) present]
  rfl

theorem Owned.of_oom (owned : Owned image m own) (oom : List Bool) :
    Owned image { m with oom := oom } own :=
  owned.of_structural (fun _ _ _ => rfl) rfl

theorem Owned.frame_lt (owned : Owned image m own) (managed : own f ≠ .outside) : f < 2 ^ 20 := by
  have upper := (owned.range f managed).2
  unfold physTop pgSize at upper
  omega

/-- The directory entries under which there are page tables. -/
def tablesPresent (m : Mem σ) (d : Nat) : Finset Nat :=
  (Finset.range 1024).filter fun i => (tableOf m d i).isSome = true

theorem tablesPresent_subset
    (tables : ∀ i t, i < 1024 → tableOf m d i = some t → tableOf m' d i = some t) :
    tablesPresent m d ⊆ tablesPresent m' d := by
  intro i present
  simp only [tablesPresent, Finset.mem_filter, Finset.mem_range, Option.isSome_iff_exists] at *
  obtain ⟨bound, t, found⟩ := present
  exact ⟨bound, t, tables i t bound found⟩

/-- There are frames for all page tables that `d` does not have yet and for `k` pages. -/
structure Ample (m : Mem σ) (d k : Nat) : Prop where
  calm : m.oom = []
  frames : 1024 + k ≤ m.freelist.length + (tablesPresent m d).card

variable {k : Nat}

theorem Ample.keep (ample : Ample m d k) (calm : m'.oom = m.oom) (frames : m'.freelist = m.freelist)
    (tables : ∀ i t, i < 1024 → tableOf m d i = some t → tableOf m' d i = some t) :
    Ample m' d k := by
  refine ⟨calm.trans ample.calm, ?_⟩
  have more := Finset.card_le_card (tablesPresent_subset tables)
  have enough := ample.frames
  rw [frames]
  omega

variable {i t : Nat}

theorem Ample.link (ample : Ample m d k) (calm : m'.oom = [])
    (frames : m'.freelist.length + 1 = m.freelist.length)
    (tables : ∀ i t, i < 1024 → tableOf m d i = some t → tableOf m' d i = some t) (bound : i < 1024)
    (absent : tableOf m d i = none) (linked : tableOf m' d i = some t) : Ample m' d k := by
  refine ⟨calm, ?_⟩
  have more : (tablesPresent m d).card < (tablesPresent m' d).card := by
    refine Finset.card_lt_card ⟨tablesPresent_subset tables, fun back => ?_⟩
    have member : i ∈ tablesPresent m' d := by simp [tablesPresent, bound, linked]
    have before := back member
    simp [tablesPresent, absent] at before
  have enough := ample.frames
  omega

theorem Ample.freelist_ne (ample : Ample m d k) (bound : i < 1024) (absent : tableOf m d i = none) :
    m.freelist ≠ [] := by
  intro empty
  have fewer : (tablesPresent m d).card < (Finset.range 1024).card := by
    refine Finset.card_lt_card ⟨Finset.filter_subset _ _, fun all => ?_⟩
    have member := all (Finset.mem_range.mpr bound)
    simp [tablesPresent, absent] at member
  have enough := ample.frames
  rw [Finset.card_range] at fewer
  rw [empty, List.length_nil] at enough
  omega

theorem Ample.takes (ample : Ample m d (k + 1)) {found : Option Nat}
    (result : kalloc m = (found, m')) :
    found ≠ none ∧ m'.oom = [] ∧ m'.freelist.length + 1 = m.freelist.length := by
  refine kalloc_returns ample.calm ?_ result
  intro empty
  have fewer : (tablesPresent m d).card ≤ (Finset.range 1024).card :=
    Finset.card_le_card (Finset.filter_subset _ _)
  have enough := ample.frames
  rw [Finset.card_range] at fewer
  rw [empty, List.length_nil] at enough
  omega

theorem Ample.take (ample : Ample m d (k + 1)) (calm : m'.oom = [])
    (frames : m'.freelist.length + 1 = m.freelist.length)
    (tables : ∀ i t, i < 1024 → tableOf m d i = some t → tableOf m' d i = some t) :
    Ample m' d k := by
  refine ⟨calm, ?_⟩
  have more := Finset.card_le_card (tablesPresent_subset tables)
  have enough := ample.frames
  omega

/-- The page table that `walkpgdir` adds: a free frame, cleared, under an absent directory entry. -/
theorem Owned.addTable (owned : Owned image m own) {rest : List Nat} (oom : List Bool)
    (live : own d = .dir) (bound : i < 1024) (absent : tableOf m d i = none)
    (shape : m.freelist = t :: rest) :
    ∃ final own', final = (({ m with oom := oom, freelist := rest } : Mem σ).setPage t
        fun _ => 0).set ⟨d, i⟩ (makePte t (pteP ||| pteW ||| pteU)) ∧
      Within image d 0 0 m own final own' ∧ kinds own' = kinds own ∧
      (∀ f, own f = .held → own' f = .held ∧ final.word f = m.word f) ∧
      tableOf final d i = some t := by
  obtain ⟨free, owned₁⟩ := owned.take (o := .held) rfl (by simp) oom shape
  have managed : own t ≠ .outside := by simp [free]
  have distinct : t ≠ d := by
    rintro rfl
    simp [free] at live
  have live₁ : update own t .held d = .dir := by
    rw [update_of_ne distinct.symm, live]
  have held₁ : update own t .held t = .held := by simp
  have owned₂ := owned₁.fill (f := t) (by simp [Owner.Structural]) fun _ => 0
  obtain ⟨tables, -, entries⟩ := owned.lookups_eq
    (({ m with oom := oom, freelist := rest } : Mem σ).setPage t fun _ => 0) live
    (fun j => by simp [distinct.symm]) (fun f j k label => by
      have other : f ≠ t := by
        rintro rfl
        simp [free] at label
      simp [other])
  have clean : ∀ j < 1024, (({ m with oom := oom, freelist := rest } : Mem σ).setPage t
      fun _ => 0).word t j = 0 := by simp
  have present : has (makePte t (pteP ||| pteW ||| pteU)) pteP = true := by
    rw [has_pteP, makePte_flag _ _ (by omega)]
    decide
  have leads : frameOf (makePte t (pteP ||| pteW ||| pteU)) = t :=
    frameOf_makePte (owned.frame_lt managed) (by decide)
  have vacant := (tables i).trans absent
  have owned₃ := owned₂.link live₁ bound vacant held₁ clean present leads
  obtain ⟨tables₃, entries₃⟩ := owned₂.link_lookups live₁ vacant held₁ clean present leads
  rw [update_idem] at owned₃
  have keep : ∀ f, f ≠ t → update own t (.table d i) f = own f :=
    fun f other => update_of_ne other _ _
  refine ⟨_, _, rfl, ⟨owned₃, by rw [keep d distinct.symm, live], ?_, ?_, ?_, ?_⟩,
    kinds_update_self (by rw [free]; rfl), ?_, ?_⟩
  · refine Apart.of_change (fun f => f = t ∨ f = d) ?_ ?_ ?_
    · rintro f (rfl | rfl)
      · simp [space, free]
      · simp [space, live]
    · intro f unchanged
      exact keep f fun same => unchanged (.inl same)
    · intro f unchanged
      funext j
      simp [show f ≠ t from fun same => unchanged (.inl same),
        show f ≠ d from fun same => unchanged (.inr same)]
  · intro j t' inside found
    rw [tables₃ d j live₁, if_neg]
    · rwa [tables j]
    · rintro ⟨-, rfl⟩
      simp [absent] at found
  · intro v inside _
    rw [entries₃ d v live₁ inside, entries v inside]
  · intro f v _ label
    have other : f ≠ t := by
      rintro rfl
      simp [free] at label
    have apart : f ≠ d := by
      rintro rfl
      simp [live] at label
    refine ⟨(keep f other).trans label, ?_⟩
    funext j
    simp [other, apart]
  · intro f held
    have other : f ≠ t := by
      rintro rfl
      simp [free] at held
    have apart : f ≠ d := by
      rintro rfl
      simp [live] at held
    refine ⟨(keep f other).trans held, ?_⟩
    funext j
    simp [other, apart]
  · rw [tables₃ d i live₁]
    simp

/-- `walkpgdir` with allocation. It returns the address of the page's entry or fails; either way no
entry changes, and a new page table comes from the free list. -/
theorem walkpgdir_alloc (owned : Owned image m own) {page : Nat} (live : own d = .dir)
    (bound : page < 2 ^ 20) :
    ∃ found final own', walkpgdir m d (page * pgSize) true = (found, final) ∧
      Within image d 0 0 m own final own' ∧ kinds own' = kinds own ∧ final.queue = m.queue ∧
      (∀ f, own f = .held → own' f = .held ∧ final.word f = m.word f) ∧
      (∀ pte, found = some pte → pteAt final d page = some pte) ∧
      ∀ k, Ample m d k → found ≠ none ∧ Ample final d k := by
  have directory : pdx (page * pgSize) = page / 1024 := by
    unfold pdx pgSize
    omega
  have index : ptx (page * pgSize) = page % 1024 := by
    unfold ptx pgSize
    omega
  unfold walkpgdir
  rw [directory, index]
  by_cases present : has (m.word d (page / 1024)) pteP = true
  · simp only [present, ↓reduceIte]
    refine ⟨_, _, own, rfl, .refl 0 0 owned live, rfl, rfl, fun f held => ⟨held, rfl⟩, ?_,
      fun k ample => ⟨by simp, ample⟩⟩
    rintro pte ⟨rfl⟩
    simp [pteAt, tableOf, present, -has_pteP]
  · simp only [present, Bool.false_eq_true, ↓reduceIte]
    have absent : tableOf m d (page / 1024) = none := by
      rw [tableOf, if_neg present]
    have small : page / 1024 < 1024 := by omega
    rcases kalloc_cases m with ⟨oom, failed⟩ | ⟨oom, t, rest, shape, taken⟩
    · rw [failed]
      refine ⟨_, _, own, rfl, ?_, rfl, rfl, fun f held => ⟨held, rfl⟩, by simp, fun k ample => ?_⟩
      · exact ⟨owned.of_oom oom, live, fun _ _ _ _ => ⟨rfl, rfl⟩, fun _ _ _ found => found,
          fun _ _ _ => rfl, fun _ _ _ label => ⟨label, rfl⟩⟩
      · exact absurd rfl (kalloc_returns ample.calm (ample.freelist_ne small absent) failed).1
    · rw [taken]
      obtain ⟨final, own', rfl, change, same, kept, linked⟩ :=
        owned.addTable oom live small absent shape
      refine ⟨_, _, own', rfl, change, same, rfl, kept, ?_, fun k ample => ⟨by simp, ?_⟩⟩
      · rintro pte ⟨rfl⟩
        rw [pteAt, linked]
        rfl
      · obtain ⟨-, calm, fewer⟩ :=
          kalloc_returns ample.calm (ample.freelist_ne small absent) taken
        exact ample.link calm fewer change.tables small absent linked

/-- Writing the entry of a user page, at which only that page's frame changes hands. -/
theorem Within.of_set {pte : PteAddr} {word : Word} (owned : Owned image m own)
    (live : own d = .dir) (bound : v < 2 ^ 20) (found : pteAt m d v = some pte)
    (owned' : Owned image (m.set pte word) own') (part : own f = .held ∨ own f = .user d v)
    (labels : ∀ g, g ≠ f → own' g = own g) :
    Within image d v (v + 1) m own (m.set pte word) own' := by
  obtain ⟨tables, -, entries⟩ := owned.set_lookups live bound found word
  obtain ⟨isTable, -⟩ := owned.pteAt_table live bound found
  have notDir : d ≠ f := by
    rintro rfl
    simp [live] at part
  refine ⟨owned', (labels d notDir).trans live, ?_, ?_, ?_, ?_⟩
  · refine Apart.of_change (fun g => g = f ∨ g = pte.frame) ?_ ?_ ?_
    · rintro g (rfl | rfl)
      · rcases part with held | user
        · simp [space, held]
        · simp [space, user]
      · simp [space, isTable]
    · intro g unchanged
      exact labels g fun same => unchanged (.inl same)
    · intro g unchanged
      funext i
      simp [show g ≠ pte.frame from fun same => unchanged (.inr same)]
  · intro i t _ present
    rwa [tables d i live]
  · intro v' inside outside
    rw [entries d v' live inside, if_neg (by omega)]
  · intro g v' outside label
    have other : g ≠ f := by
      rintro rfl
      rcases part with held | user
      · simp [held] at label
      · rw [user] at label
        injection label with _ same
        omega
    have apart : g ≠ pte.frame := by
      rintro rfl
      simp [isTable] at label
    refine ⟨(labels g other).trans label, ?_⟩
    funext i
    simp [apart]

theorem mappages_page (m : Mem σ) (d f : Nat) (perm : Word) (bound : v < 2 ^ 20) :
    mappages m d (v * pgSize) pgSize f perm = mappagesLoop d perm 1 m v f := by
  have first : pgRoundDown (v * pgSize) / pgSize = v := by
    unfold pgRoundDown pgSize
    omega
  have last : pgRoundDown ((v * pgSize + pgSize + 2 ^ 32 - 1) % 2 ^ 32) / pgSize = v := by
    unfold pgRoundDown pgSize
    omega
  have rounds : (v + 2 ^ 20 - v) % 2 ^ 20 + 1 = 1 := by omega
  rw [mappages, first, last, rounds]

/-- `mappages` for one user page. It maps the frame in the caller's hands, or fails because no page
table could be allocated and leaves the frame with the caller. -/
theorem mappages_user (owned : Owned image m own) (live : own d = .dir) (bound : v < userPages)
    (vacant : mapped (entry m d v) = false) (held : own f = .held) (perm : Word)
    (small : perm.toNat < 4096) :
    ∃ done final own', mappages m d (v * pgSize) pgSize f perm = .ok (done, final) ∧
      Within image d v (v + 1) m own final own' ∧ final.queue = m.queue ∧
      final.word f = m.word f ∧
      ((done = true ∧ own' f = .user d v ∧ entry final d v = mappedEntry f perm ∧
          kinds own' = update (kinds own) f .pool) ∨
        (done = false ∧ own' f = .held ∧ entry final d v = entry m d v ∧
          kinds own' = kinds own)) ∧
      ∀ k, Ample m d k → done = true ∧ Ample final d k := by
  have managed : own f ≠ .outside := by simp [held]
  obtain ⟨found, m₁, own₁, walked, change, same, queue, kept, address, progress⟩ :=
    walkpgdir_alloc owned live (page_lt bound)
  obtain ⟨held₁, words₁⟩ := kept f held
  have entry₁ : entry m₁ d v = entry m d v := change.entries v (page_lt bound) (by omega)
  rw [mappages_page m d f perm (page_lt bound), mappagesLoop, walked]
  cases found with
  | none =>
    refine ⟨false, m₁, own₁, rfl, change.widen (by omega) (by omega), queue, words₁, .inr ?_,
      fun k ample => absurd rfl (progress k ample).1⟩
    exact ⟨rfl, held₁, entry₁, same⟩
  | some pte =>
    have found := address pte rfl
    have value : m₁.get pte = entry m d v := by
      rw [← entry₁, entry, found]
      rfl
    have vacant₁ : mapped (entry m₁ d v) = false := by rw [entry₁, vacant]
    have leads : frameOf (mappedEntry f perm) = f :=
      frameOf_mappedEntry (owned.frame_lt managed) small
    have owned₂ := change.owned.map change.live bound found vacant₁ held₁
      (mapped_mappedEntry f perm) leads
    have change₂ := Within.of_set change.owned change.live (page_lt bound) found owned₂
      (.inl held₁) (fun g other => update_of_ne other _ _)
    obtain ⟨-, -, entries⟩ := change.owned.set_lookups change.live (page_lt bound) found
      (mappedEntry f perm)
    obtain ⟨isTable, -⟩ := change.owned.pteAt_table change.live (page_lt bound) found
    simp only [value, vacant, Bool.false_eq_true, ↓reduceIte, mappagesLoop]
    refine ⟨true, _, _, rfl, (change.widen (by omega) (by omega)).trans change₂, queue, ?_, .inl ?_,
      fun k ample => ⟨rfl, (progress k ample).2.keep rfl rfl change₂.tables⟩⟩
    · rw [← words₁]
      funext i
      have apart : f ≠ pte.frame := by
        rintro rfl
        simp [isTable] at held₁
      simp [apart]
    · refine ⟨rfl, by simp, by simp [entries d v change.live (page_lt bound)], ?_⟩
      rw [kinds_update, same]
      rfl

/-! ## The kernel half -/

/-- The loop of `mappages` over vacant pages of the kernel half. -/
theorem mappagesLoop_kernel {perm : Word} (closed : perm.getLsbD 2 = false) (rounds : Nat)
    (owned : Owned image m own) (live : own d = .dir) (page frame : Nat)
    (kernel : 0 < rounds → userPages ≤ page) (bound : page + rounds ≤ 2 ^ 20)
    (vacant : ∀ v, page ≤ v → v < page + rounds → mapped (entry m d v) = false) :
    ∃ done final own', mappagesLoop d perm rounds m page frame = .ok (done, final) ∧
      Within image d page (page + rounds) m own final own' ∧ kinds own' = kinds own ∧
      final.queue = m.queue ∧
      (done = true → ∀ v, page ≤ v → v < page + rounds → mapped (entry final d v) = true) ∧
      ∀ k, Ample m d k → done = true ∧ Ample final d k := by
  induction rounds generalizing m own page frame with
  | zero =>
    exact ⟨true, m, own, rfl, .refl _ _ owned live, rfl, rfl, fun _ v lower upper => by omega,
      fun k ample => ⟨rfl, ample⟩⟩
  | succ rounds ih =>
    have inside : page < 2 ^ 20 := by omega
    obtain ⟨found, m₁, own₁, walked, change, same, queue, -, address, progress⟩ :=
      walkpgdir_alloc owned live inside
    rw [mappagesLoop, walked]
    cases found with
    | none =>
      exact ⟨false, m₁, own₁, rfl, change.widen (by omega) (by omega), same, queue, by simp,
        fun k ample => absurd rfl (progress k ample).1⟩
    | some pte =>
      have found := address pte rfl
      have entry₁ : entry m₁ d page = entry m d page := change.entries page inside (by omega)
      have value : m₁.get pte = entry m d page := by
        rw [← entry₁, entry, found]
        rfl
      have shut : (mappedEntry frame perm).getLsbD 2 = false := by
        rw [mappedEntry_flag _ _ (by omega)]
        simpa using closed
      have owned₂ := change.owned.setKernel change.live inside (kernel (by omega)) found shut
      obtain ⟨tables, -, entries⟩ := change.owned.set_lookups change.live inside found
        (mappedEntry frame perm)
      obtain ⟨isTable, -⟩ := change.owned.pteAt_table change.live inside found
      have change₂ : Within image d page (page + (rounds + 1)) m₁ own₁
          (m₁.set pte (mappedEntry frame perm)) own₁ := by
        refine ⟨owned₂, change.live, ?_, ?_, ?_, ?_⟩
        · refine Apart.of_change (fun g => g = pte.frame) ?_ (fun _ _ => rfl) ?_
          · rintro g rfl
            simp [space, isTable]
          · intro g unchanged
            funext i
            simp [show g ≠ pte.frame from unchanged]
        · intro i t _ present
          rwa [tables d i change.live]
        · intro v small outside
          rw [entries d v change.live small, if_neg (by omega)]
        · intro g v _ label
          have apart : g ≠ pte.frame := by
            rintro rfl
            simp [isTable] at label
          refine ⟨label, ?_⟩
          funext i
          simp [apart]
      simp only [value, vacant page (by omega) (by omega), Bool.false_eq_true, ↓reduceIte]
      -- the page number wraps after the last page only, where no round is left
      obtain ⟨done, final, own', looped, later, same', queue', filled, progress'⟩ := ih owned₂
        change.live ((page + 1) % 2 ^ 20) ((frame + 1) % 2 ^ 20)
        (fun positive => by have := kernel (by omega); omega) (by omega) (fun v lower upper => by
          have distinct : v ≠ page := by omega
          have small : v < 2 ^ 20 := by omega
          rw [entries d v change.live small, if_neg (by omega),
            change.entries v small (by omega)]
          exact vacant v (by omega) (by omega))
      refine ⟨done, final, own', looped, ?_, same'.trans same, queue'.trans queue, ?_, fun k ample =>
        progress' k ((progress k ample).2.keep rfl rfl change₂.tables)⟩
      · exact ((change.widen (by omega) (by omega)).trans change₂).trans
          (later.widen (by omega) (by omega))
      · intro all v atLeast below
        by_cases first : v = page
        · rw [later.entries v (by omega) (by omega), entries d v change.live (by omega),
            if_pos ⟨rfl, first⟩]
          exact mapped_mappedEntry frame perm
        · exact filled all v (by omega) (by omega)

/-! ## Freeing -/

/-- A frame outside every address space changes its label and contents. -/
theorem Within.of_loose (owned : Owned image m own) (owned' : Owned image m' own')
    (live : own d = .dir) (loose : space own f = none) (labels : ∀ g, g ≠ f → own' g = own g)
    (words : ∀ g, g ≠ f → m'.word g = m.word g) : Within image d 0 0 m own m' own' := by
  have other : ∀ g d', space own g = some d' → g ≠ f := by
    rintro g d' part rfl
    simp [loose] at part
  have distinct : d ≠ f := other d d (by simp [space, live])
  obtain ⟨tables, -, entries⟩ := owned.lookups_eq m' live (fun i => by rw [words d distinct])
    (fun g j i label => by rw [words g (other g d (by simp [space, label]))])
  refine ⟨owned', (labels d distinct).trans live, ?_, ?_, ?_, ?_⟩
  · exact fun g d' part _ => ⟨labels g (other g d' part), words g (other g d' part)⟩
  · intro i t _ present
    rwa [tables]
  · exact fun v bound _ => entries v bound
  · intro g v _ label
    have apart := other g d (by simp [space, label])
    exact ⟨(labels g apart).trans label, words g apart⟩

theorem Mem.setPage_set_comm (m : Mem σ) {pte : PteAddr} (distinct : pte.frame ≠ f)
    (page : Nat → Word) (word : Word) :
    (m.setPage f page).set pte word = (m.set pte word).setPage f page := by
  have words : ((m.setPage f page).set pte word).word = ((m.set pte word).setPage f page).word := by
    funext g i
    by_cases same : g = f
    · subst same
      simp [distinct.symm]
    · simp [same]
  cases m
  simpa [Mem.set, Mem.setPage] using words

/-- A page is freed: `kfree` of its frame, then a zero entry. -/
theorem Owned.freePage (owned : Owned image m own) {pte : PteAddr} (live : own d = .dir)
    (bound : v < userPages) (found : pteAt m d v = some pte)
    (isMapped : mapped (entry m d v) = true) :
    ∃ freed own', frameOf (entry m d v) ≠ 0 ∧ kfree image m (frameOf (entry m d v)) = .ok freed ∧
      freed.queue = m.queue ∧ Within image d v (v + 1) m own (freed.set pte 0) own' ∧
      kinds own' = kinds own ∧ entry (freed.set pte 0) d v = 0 := by
  have label := owned.user d v live bound isMapped
  have managed : own (frameOf (entry m d v)) ≠ .outside := by simp [label]
  generalize frameOf (entry m d v) = f at label managed ⊢
  obtain ⟨lower, upper⟩ := owned.range f managed
  have nonzero : f ≠ 0 := by
    have above := image.data_above
    have order := image.end_above
    unfold extMem pgSize at above
    omega
  obtain ⟨isTable, -⟩ := owned.pteAt_table live (page_lt bound) found
  have distinct : pte.frame ≠ f := by
    rintro rfl
    simp [isTable] at label
  -- the frame is freed while its entry still stands; both orders give the same memory
  have owned₁ := owned.unmap live bound found label
  have change₁ := Within.of_set owned live (page_lt bound) found owned₁ (.inr label)
    (fun g other => update_of_ne other _ _)
  obtain ⟨final, freed, -, words, owned₂⟩ := owned₁.release (f := f) (by simp [Owner.loose])
    (by simp)
  have change₂ := Within.of_loose (d := d) (f := f) owned₁ owned₂ change₁.live (by simp [space])
    (fun g other => update_of_ne other _ _) words
  have same : final = Mem.set { m.setPage f (fun _ => 0x01010101) with
      freelist := f :: m.freelist } pte 0 := by
    rw [kfree_returns _ lower upper] at freed
    cases freed
    have swapped := m.setPage_set_comm distinct (fun _ => 0x01010101) 0
    rw [← swapped]
    rfl
  subst same
  refine ⟨_, _, nonzero, kfree_returns m lower upper, rfl,
    change₁.trans (change₂.widen (by omega) (by omega)), ?_, ?_⟩
  · rw [update_idem]
    exact kinds_update_self (by rw [label]; rfl)
  · obtain ⟨-, -, entries⟩ := owned.set_lookups live (page_lt bound) found 0
    rw [change₂.entries v (page_lt bound) (by omega), entries d v live (page_lt bound)]
    simp

/-- The pages that lie wholly or partly below an address. -/
def pagesBelow (size : Nat) : Nat := (size + 4095) / 4096

variable {oldsz : Nat}

/-- The loop of `deallocuvm` frees every page from `v` up to the old size, in the same way for every
queue that has no business with them. -/
theorem deallocuvmLoop_spec (top : oldsz ≤ kernBase) (fuel : Nat) (owned : Owned image m own)
    (live : own d = .dir) (v : Nat) (positive : 0 < fuel) (enough : pagesBelow oldsz < v + fuel) :
    ∃ final own', (∀ ops : ClockOps σ,
        (∀ v' pte, v ≤ v' → v' < pagesBelow oldsz → pteAt m d v' = some pte →
          mapped (entry m d v') = true → ops.remove m.queue pte = .ok m.queue) →
        deallocuvmLoop image ops d oldsz fuel m (v * pgSize) = .ok final) ∧
      Within image d v (pagesBelow oldsz) m own final own' ∧ kinds own' = kinds own ∧
      final.queue = m.queue ∧ ∀ v', v ≤ v' → v' < pagesBelow oldsz → entry final d v' = 0 := by
  induction fuel generalizing m own v with
  | zero => omega
  | succ fuel ih =>
    simp only [deallocuvmLoop]
    have reached : v * pgSize < oldsz ↔ v < pagesBelow oldsz := by
      unfold pgSize pagesBelow
      omega
    by_cases inside : v < pagesBelow oldsz
    · have user : v < userPages := by
        unfold pagesBelow at inside
        unfold kernBase at top
        unfold userPages
        omega
      simp only [if_pos (reached.mpr inside), walkpgdir_page m d (page_lt user)]
      cases found : pteAt m d v with
      | none =>
        -- without a page table the source goes on at the next directory entry
        have next : pgAddr (pdx (v * pgSize) + 1) = (v / 1024 + 1) * 1024 * pgSize := by
          unfold userPages at user
          unfold pgAddr pdx pgSize
          omega
        have skipped : ∀ v', v ≤ v' → v' < (v / 1024 + 1) * 1024 → entry m d v' = 0 := by
          intro v' lower upper
          have same : v' / 1024 = v / 1024 := by omega
          have absent : tableOf m d (v / 1024) = none := by
            simpa [pteAt] using found
          simp [entry, pteAt, same, absent]
        obtain ⟨final, own', looped, change, same, queue, cleared⟩ := ih owned live
          ((v / 1024 + 1) * 1024) (by omega) (by omega)
        simp only [next]
        refine ⟨final, own', ?_, ?_, same, queue, ?_⟩
        · intro ops quiet
          exact looped ops fun v' pte lower => quiet v' pte (by omega)
        · by_cases ahead : (v / 1024 + 1) * 1024 ≤ pagesBelow oldsz
          · exact change.widen (by omega) (by omega)
          · exact change.widen (by omega) (by omega)
        · intro v' lower upper
          by_cases early : v' < (v / 1024 + 1) * 1024
          · rw [change.entries v' (by unfold userPages at user; omega) (by omega)]
            exact skipped v' lower early
          · exact cleared v' (by omega) upper
      | some pte =>
        have value := get_pteAt found
        have next : v * pgSize + pgSize = (v + 1) * pgSize := by
          unfold pgSize
          omega
        simp only [value, next]
        by_cases isMapped : mapped (entry m d v) = true
        · obtain ⟨freed, own₁, nonzero, freeing, queue₁, change₁, same₁, zero⟩ :=
            owned.freePage live user found isMapped
          simp only [isMapped, ↓reduceIte, nonzero, freeing, ok_bind, queue₁]
          have shape : ({ freed with queue := m.queue } : Mem σ) = freed := by rw [← queue₁]
          obtain ⟨final, own', looped, change, same, queue, cleared⟩ := ih change₁.owned
            change₁.live (v + 1) (by omega) (by omega)
          refine ⟨final, own', ?_, ?_, same.trans same₁, queue.trans queue₁, ?_⟩
          · intro ops quiet
            rw [quiet v pte (by omega) inside found isMapped, ok_bind, shape]
            apply looped ops
            intro v' pte' lower upper present kept
            have small : v' < 2 ^ 20 := by
              unfold pagesBelow at upper
              unfold kernBase at top
              omega
            rw [change₁.entries v' small (by omega)] at kept
            obtain ⟨pte'', before, -⟩ := exists_pteAt kept
            have after := change₁.pteAt_eq small before
            rw [present] at after
            rw [Mem.set_queue, queue₁]
            exact quiet v' pte' (by omega) upper (before.trans after.symm) kept
          · exact (change₁.widen (by omega) (by omega)).trans (change.widen (by omega) (by omega))
          · intro v' lower upper
            by_cases first : v' = v
            · rw [change.entries v' (by rw [first]; exact page_lt user) (by omega), first, zero]
            · exact cleared v' (by omega) upper
        · have zero : entry m d v = 0 := owned.zero d v live user (by simpa using isMapped)
          obtain ⟨final, own', looped, change, same, queue, cleared⟩ := ih owned live (v + 1)
            (by omega) (by omega)
          simp only [isMapped, Bool.false_eq_true, ↓reduceIte]
          refine ⟨final, own', ?_, change.widen (by omega) (by omega), same, queue, ?_⟩
          · intro ops quiet
            exact looped ops fun v' pte' lower => quiet v' pte' (by omega)
          · intro v' lower upper
            by_cases first : v' = v
            · rw [change.entries v' (by rw [first]; exact page_lt user) (by omega), first, zero]
            · exact cleared v' (by omega) upper
    · simp only [if_neg (mt reached.mp inside)]
      exact ⟨m, own, fun _ _ => rfl, .refl _ _ owned live, rfl, rfl, fun v' lower upper => by omega⟩

theorem pgRoundUp_eq {size : Nat} (bound : size ≤ kernBase) :
    pgRoundUp size = pagesBelow size * pgSize := by
  unfold kernBase at bound
  unfold pgRoundUp pagesBelow pgSize
  omega

/-- `deallocuvm` frees the pages between the two sizes, in the same way for every queue that has no
business with them. -/
theorem deallocuvm_uniform (newsz : Nat) (owned : Owned image m own) (live : own d = .dir)
    (top : oldsz ≤ kernBase) :
    ∃ final own', (∀ ops : ClockOps σ,
        (∀ v pte, pagesBelow newsz ≤ v → v < pagesBelow oldsz → pteAt m d v = some pte →
          mapped (entry m d v) = true → ops.remove m.queue pte = .ok m.queue) →
        deallocuvm image ops m d oldsz newsz =
          .ok (if oldsz ≤ newsz then oldsz else newsz, final)) ∧
      Within image d (pagesBelow newsz) (pagesBelow oldsz) m own final own' ∧
      kinds own' = kinds own ∧ final.queue = m.queue ∧
      ∀ v, pagesBelow newsz ≤ v → v < pagesBelow oldsz → entry final d v = 0 := by
  simp only [deallocuvm]
  by_cases order : oldsz ≤ newsz
  · simp only [if_pos order]
    refine ⟨m, own, fun _ _ => rfl, .refl _ _ owned live, rfl, rfl, fun v lower upper => ?_⟩
    unfold pagesBelow at lower upper
    omega
  · simp only [if_neg order, pgRoundUp_eq (show newsz ≤ kernBase by omega)]
    obtain ⟨final, own', looped, change, same, queue, cleared⟩ := deallocuvmLoop_spec top
      (oldsz / pgSize + 2) owned live (pagesBelow newsz) (Nat.succ_pos _) (by
        unfold pagesBelow pgSize
        omega)
    refine ⟨final, own', fun ops quiet => ?_, change, same, queue, cleared⟩
    rw [looped ops quiet, ok_bind]

theorem deallocuvm_spec (ops : ClockOps σ) (newsz : Nat) (owned : Owned image m own)
    (live : own d = .dir) (top : oldsz ≤ kernBase)
    (quiet : ∀ v pte, pagesBelow newsz ≤ v → v < pagesBelow oldsz → pteAt m d v = some pte →
      mapped (entry m d v) = true → ops.remove m.queue pte = .ok m.queue) :
    ∃ final own', deallocuvm image ops m d oldsz newsz =
        .ok (if oldsz ≤ newsz then oldsz else newsz, final) ∧
      Within image d (pagesBelow newsz) (pagesBelow oldsz) m own final own' ∧
      kinds own' = kinds own ∧ final.queue = m.queue ∧
      ∀ v, pagesBelow newsz ≤ v → v < pagesBelow oldsz → entry final d v = 0 := by
  obtain ⟨final, own', freed, facts⟩ := deallocuvm_uniform newsz owned live top
  exact ⟨final, own', freed ops quiet, facts⟩

theorem retired_succ (owned : Owned image m own) (present : tableOf m d i = some t)
    (label : own t = .table d i) :
    update (retired own d i) t .free = retired own d (i + 1) := by
  funext f
  by_cases same : f = t
  · subst same
    simp [retired, label]
  · rw [update_of_ne same]
    unfold retired
    cases other : own f with
    | table d' j =>
      by_cases mine : d' = d
      · have distinct : j ≠ i := by
          rintro rfl
          obtain ⟨-, -, found⟩ := owned.tableBack d' j f other
          rw [mine, present] at found
          exact same (Option.some.inj found).symm
        simp only [mine, ↓reduceIte, show j < i + 1 ↔ j < i by omega]
      · simp [mine]
    | _ => rfl

theorem retired_skip (owned : Owned image m own) (absent : tableOf m d i = none) :
    retired own d i = retired own d (i + 1) := by
  funext f
  unfold retired
  cases other : own f with
  | table d' j =>
    by_cases mine : d' = d
    · have distinct : j ≠ i := by
        rintro rfl
        obtain ⟨-, -, found⟩ := owned.tableBack d' j f other
        rw [mine, absent] at found
        simp at found
      simp only [mine, ↓reduceIte, show j < i + 1 ↔ j < i by omega]
    · simp [mine]
  | _ => rfl

/-- The loop of `freevm` frees the page tables of a directory that is being taken apart. -/
theorem freeTables_spec (base : Owned image m own) (live : own d = .dir) (rounds i : Nat)
    (sum : i + rounds = 1024) {now : Mem σ} (owned : Owned image now (retired own d i))
    (directory : ∀ j, now.word d j = m.word d j) :
    ∃ final, freeTables image d rounds now i = .ok final ∧
      Owned image final (retired own d 1024) ∧ final.queue = now.queue ∧
      ∀ f, (∀ j, own f ≠ .table d j) → final.word f = now.word f := by
  induction rounds generalizing i now with
  | zero =>
    obtain rfl : i = 1024 := by omega
    exact ⟨now, rfl, owned, rfl, fun _ _ => rfl⟩
  | succ rounds ih =>
    rw [freeTables, directory]
    by_cases present : has (m.word d i) pteP = true
    · have found : tableOf m d i = some (frameOf (m.word d i)) := by rw [tableOf, if_pos present]
      generalize frameOf (m.word d i) = t at found ⊢
      have label := base.table d i t live (by omega) found
      have held : retired own d i t = .held := by simp [retired, label]
      obtain ⟨freed, freeing, queue, words, owned'⟩ := owned.release (f := t)
        (by rw [held]; rfl) (by simp [held])
      rw [retired_succ base found label] at owned'
      have distinct : d ≠ t := by
        rintro rfl
        simp [live] at label
      obtain ⟨final, looped, last, queue', others⟩ := ih (i + 1) (by omega) owned'
        (fun j => by rw [words d distinct, directory])
      simp only [present, ↓reduceIte, freeing, ok_bind]
      refine ⟨final, looped, last, queue'.trans queue, fun f other => ?_⟩
      rw [others f other, words f]
      rintro rfl
      exact other i label
    · have absent : tableOf m d i = none := by rw [tableOf, if_neg present]
      rw [retired_skip base absent] at owned
      simp only [present, Bool.false_eq_true, ↓reduceIte]
      exact ih (i + 1) (by omega) owned directory

/-- `freevm` returns an address space to the free list, in the same way for every queue that has no
business with its pages. -/
theorem freevm_uniform (owned : Owned image m own) (live : own d = .dir) :
    ∃ final own', (∀ ops : ClockOps σ,
        (∀ v pte, v < userPages → pteAt m d v = some pte → mapped (entry m d v) = true →
          ops.remove m.queue pte = .ok m.queue) →
        freevm image ops m d = .ok final) ∧ Owned image final own' ∧
      Apart d m own final own' ∧ kinds own' = update (kinds own) d .pool ∧
      final.queue = m.queue := by
  have pages : pagesBelow kernBase = userPages := by decide
  obtain ⟨m₁, own₁, dealloc, change, same, queue, cleared⟩ := deallocuvm_uniform 0 owned live
    (le_refl kernBase)
  have empty : ∀ v < userPages, mapped (entry m₁ d v) = false := by
    intro v bound
    rw [cleared v (by simp [pagesBelow]) (pages ▸ bound)]
    decide
  obtain ⟨m₂, freed, owned₂, queue₂, words₂⟩ := freeTables_spec change.owned change.live 1024 0
    (by omega) (change.owned.retire change.live empty) (fun _ => rfl)
  have held : retired own₁ d 1024 d = .held := by simp [retired, change.live]
  obtain ⟨final, freeing, queue₃, words₃, owned₃⟩ := owned₂.release (f := d) (by rw [held]; rfl)
    (by simp [held])
  refine ⟨final, _, ?_, owned₃, ?_, ?_, queue₃.trans (queue₂.trans queue)⟩
  · intro ops quiet
    rw [freevm, dealloc ops fun v pte _ upper => quiet v pte (pages ▸ upper)]
    simp only [ok_bind, pgWords, freed, freeing]
  · refine change.apart.trans ?_
    intro f d' part distinct
    have other : f ≠ d := by
      rintro rfl
      simp [space, change.live] at part
      exact distinct part.symm
    have notTable : ∀ j, own₁ f ≠ .table d j := by
      intro j label
      simp only [space, label, Option.some.injEq] at part
      exact distinct part.symm
    refine ⟨?_, (words₃ f other).trans (words₂ f notTable)⟩
    rw [update_of_ne other]
    unfold retired
    cases label : own₁ f with
    | dir => simp [other]
    | table d'' j =>
      have mine : d'' ≠ d := by
        rintro rfl
        exact notTable j label
      simp [mine]
    | _ => rfl
  · rw [kinds_update]
    funext f
    by_cases mine : f = d
    · subst mine
      simp [Owner.kind]
    · rw [update_of_ne mine, update_of_ne mine, ← same]
      simp only [kinds, retired]
      cases label : own₁ f with
      | dir => simp [mine]
      | table d' j =>
        have small := (change.owned.tableBack d' j f label).2.1
        by_cases part : d' = d
        · simp [part, small, Owner.kind]
        · simp [part]
      | _ => rfl

theorem freevm_spec (ops : ClockOps σ) (owned : Owned image m own) (live : own d = .dir)
    (quiet : ∀ v pte, v < userPages → pteAt m d v = some pte → mapped (entry m d v) = true →
      ops.remove m.queue pte = .ok m.queue) :
    ∃ final own', freevm image ops m d = .ok final ∧ Owned image final own' ∧
      Apart d m own final own' ∧ kinds own' = update (kinds own) d .pool ∧
      final.queue = m.queue := by
  obtain ⟨final, own', freed, facts⟩ := freevm_uniform owned live
  exact ⟨final, own', freed ops quiet, facts⟩

end MemoryEncryption
