import MemoryEncryption.Verif.AddressSpaces

/-!
# Building, growing and copying an address space

Specifications of `setupkvm`, `allocuvm` and `copyuvm`, for every outcome of the
page allocator. Each of the three either does all of its work or gives back every
frame it took. The functions free pages when they fail, and freeing a page involves
the clock queue of the caller; the specifications assume that the queue has no
business with frames that were free at the call.
-/

namespace MemoryEncryption

open Function Outcome

variable {σ : Type} {image : Image} {m m' : Mem σ} {own own' : Nat → Owner}

/-! ## Building an address space -/

variable {f : Nat}

theorem Owned.space_live (owned : Owned image m own) {d : Nat} (part : space own f = some d) :
    own d = .dir := by
  unfold space at part
  cases label : own f with
  | dir =>
    simp only [label, Option.some.injEq] at part
    rw [← part, label]
  | table d' i =>
    simp only [label, Option.some.injEq] at part
    rw [← part]
    exact (owned.tableBack d' i f label).1
  | user d' v =>
    simp only [label, Option.some.injEq] at part
    rw [← part]
    exact (owned.userBack d' v f label).1
  | _ => simp [label] at part

/-- A change apart from an address space that did not exist keeps all address spaces. -/
theorem Apart.all {d : Nat} (apart : Apart d m own m' own') (owned : Owned image m own)
    (fresh : own d ≠ .dir) (e : Nat) : Apart e m own m' own' := by
  intro f d' part _
  refine apart f d' part ?_
  rintro rfl
  exact fresh (owned.space_live part)

theorem mappages_range (m : Mem σ) (d frame : Nat) (perm : Word) {first n : Nat} (positive : 0 < n)
    (bound : first + n ≤ 2 ^ 20) :
    mappages m d (first * pgSize) (n * pgSize) frame perm =
      mappagesLoop d perm n m first frame := by
  have start : pgRoundDown (first * pgSize) / pgSize = first := by
    unfold pgRoundDown pgSize
    omega
  have last : pgRoundDown ((first * pgSize + n * pgSize + 2 ^ 32 - 1) % 2 ^ 32) / pgSize =
      first + n - 1 := by
    unfold pgRoundDown pgSize
    omega
  have rounds : (first + n - 1 + 2 ^ 20 - first) % 2 ^ 20 + 1 = n := by omega
  rw [mappages, start, last, rounds]

/-- Rows of page-aligned, nonempty ranges of the kernel half in ascending order from a page on, all
closed to the user. -/
def Ascending : Nat → List Kmap → Prop
  | _, [] => True
  | low, k :: rest => ∃ first n, k.perm.getLsbD 2 = false ∧ k.virt = first * pgSize ∧
      (k.physEnd + 2 ^ 32 - k.physStart) % 2 ^ 32 = n * pgSize ∧ 0 < n ∧ low ≤ first ∧
      first + n ≤ 2 ^ 20 ∧ Ascending (first + n) rest

theorem kmap_ascending (image : Image) : Ascending userPages (kmap image) := by
  have above := image.data_above
  have order := image.end_above
  have below := image.end_below
  unfold extMem pgSize at above
  unfold physTop pgSize at below
  have writable : pteW.getLsbD 2 = false := by decide
  refine ⟨0x80000, 0x100, writable, rfl, by decide, by omega, by decide, by omega,
    0x80100, image.dataPage - 0x100, by simp, rfl, ?_, by omega, by omega, by omega,
    0x80000 + image.dataPage, 0xE000 - image.dataPage, writable, ?_, ?_, by omega, by omega, by omega,
    0xFE000, 0x2000, writable, by decide, by decide, by omega, by omega, by omega, trivial⟩
  · simp only [extMem, pgSize]
    omega
  · simp only [kernBase, pgSize]
    omega
  · simp only [physTop, pgSize]
    omega

/-- The page lies in one of the ranges. -/
def InKmap (v : Nat) (rows : List Kmap) : Prop :=
  ∃ k ∈ rows, ∃ first n, k.virt = first * pgSize ∧
    (k.physEnd + 2 ^ 32 - k.physStart) % 2 ^ 32 = n * pgSize ∧ first ≤ v ∧ v < first + n

variable {low : Nat}

/-- The loop of `setupkvm` maps the kernel half, or fails and frees the address space. -/
theorem setupkvmLoop_spec {d : Nat} (rows : List Kmap) (ascending : Ascending low rows)
    (owned : Owned image m own) (live : own d = .dir) (lower : userPages ≤ low)
    (empty : ∀ v < userPages, entry m d v = 0)
    (vacant : ∀ v, low ≤ v → v < 2 ^ 20 → mapped (entry m d v) = false) :
    ∃ result final own', (∀ ops : ClockOps σ, setupkvmLoop image ops d rows m = .ok (result, final)) ∧
      Owned image final own' ∧ Apart d m own final own' ∧ final.queue = m.queue ∧
      ((result = some d ∧ own' d = .dir ∧ kinds own' = kinds own ∧
          (∀ v < userPages, entry final d v = 0) ∧
          (∀ v < low, entry final d v = entry m d v) ∧
          ∀ v, InKmap v rows → mapped (entry final d v) = true) ∨
        (result = none ∧ kinds own' = update (kinds own) d .pool)) ∧
      ∀ k, Ample m d k → result ≠ none ∧ Ample final d k := by
  induction rows generalizing m own low with
  | nil =>
    exact ⟨some d, m, own, fun _ => rfl, owned, .refl d m own, rfl,
      .inl ⟨rfl, live, rfl, empty, fun _ _ => rfl, by simp [InKmap]⟩, fun k ample => ⟨by simp, ample⟩⟩
  | cons k rest ih =>
    obtain ⟨first, n, closed, virt, size, positive, order, bound, later⟩ := ascending
    obtain ⟨done, m₁, own₁, looped, change, same, queue, filled, progress⟩ := mappagesLoop_kernel
      closed n owned live first (k.physStart / pgSize) (fun _ => by omega) bound
      (fun v atLeast below => vacant v (by omega) (by omega))
    simp only [setupkvmLoop, virt, size, mappages_range m d _ k.perm positive bound, looped]
    have empty₁ : ∀ v < userPages, entry m₁ d v = 0 := by
      intro v user
      rw [change.entries v (page_lt user) (by omega)]
      exact empty v user
    cases done with
    | false =>
      obtain ⟨final, own', freed, owned', apart, kind, queue'⟩ := freevm_uniform change.owned
        change.live
      have freeing : ∀ ops : ClockOps σ, freevm image ops m₁ d = .ok final := by
        intro ops
        apply freed ops
        intro v pte user _ isMapped
        rw [empty₁ v user] at isMapped
        simp at isMapped
      simp only [ok_bind, Bool.false_eq_true, ↓reduceIte, freeing]
      exact ⟨none, final, own', fun _ => rfl, owned', change.apart.trans apart, queue'.trans queue,
        .inr ⟨rfl, by rw [kind, same]⟩, fun k ample => by simpa using (progress k ample).1⟩
    | true =>
      obtain ⟨result, final, own', finished, owned', apart, queue', outcome, progress'⟩ := ih later
        change.owned change.live (by omega) empty₁ (fun v atLeast below => by
          rw [change.entries v below (by omega)]
          exact vacant v (by omega) below)
      simp only [ok_bind, ↓reduceIte]
      refine ⟨result, final, own', finished, owned', change.apart.trans apart,
        queue'.trans queue, ?_, fun k ample => progress' k (progress k ample).2⟩
      rw [same] at outcome
      apply outcome.imp_left
      rintro ⟨made, live', kind, empty', kept, covered⟩
      refine ⟨made, live', kind, empty', fun v below => ?_, ?_⟩
      · rw [kept v (by omega), change.entries v (by omega) (by omega)]
      · rintro v ⟨row, member, first', n', virt', size', atLeast, below⟩
        rcases List.mem_cons.mp member with rfl | member'
        · have pages : first' = first ∧ n' = n := by
            rw [virt] at virt'
            rw [size] at size'
            unfold pgSize at virt' size'
            omega
          obtain ⟨rfl, rfl⟩ := pages
          rw [kept v (by omega)]
          exact filled rfl v atLeast below
        · exact covered v ⟨row, member', first', n', virt', size', atLeast, below⟩

/-- `setupkvm` makes an address space without user pages out of free frames, or fails and keeps
none of them. -/
theorem setupkvm_spec (owned : Owned image m own) :
    ∃ result final own', (∀ ops : ClockOps σ, setupkvm image ops m = .ok (result, final)) ∧
      Owned image final own' ∧ (∀ e, Apart e m own final own') ∧ final.queue = m.queue ∧
      ((∃ d, result = some d ∧ own d = .free ∧ own' d = .dir ∧
          kinds own' = update (kinds own) d .dir ∧
          (∀ v < userPages, entry final d v = 0) ∧
          ∀ v, InKmap v (kmap image) → mapped (entry final d v) = true) ∨
        (result = none ∧ kinds own' = kinds own)) ∧
      ∀ k, m.oom = [] → 1025 + k ≤ m.freelist.length →
        ∃ d, result = some d ∧ Ample final d k := by
  simp only [setupkvm]
  rcases kalloc_cases m with ⟨oom, failed⟩ | ⟨oom, d, rest, shape, taken⟩
  · rw [failed]
    refine ⟨none, _, own, fun _ => rfl, owned.of_oom oom, fun _ _ _ _ _ => ⟨rfl, rfl⟩, rfl, .inr ⟨rfl, rfl⟩,
      fun k calm enough => ?_⟩
    have some : m.freelist ≠ [] := List.ne_nil_of_length_pos (by omega)
    exact absurd rfl (kalloc_returns calm some failed).1
  · rw [taken]
    obtain ⟨free, owned₁⟩ := owned.take (o := .held) rfl (by simp) oom shape
    have owned₂ := owned₁.fill (f := d) (by simp [Owner.Structural]) fun _ => 0
    obtain ⟨owned₃, tables, entries⟩ := owned₂.newDir (d := d) (by simp) (by simp)
    rw [update_idem] at owned₃
    obtain ⟨result, final, own', finished, owned', apart, queue, outcome, progress⟩ :=
      setupkvmLoop_spec (kmap image) (kmap_ascending image) owned₃ (by simp) le_rfl
      (fun v user => entries v (page_lt user))
      (fun v _ bound => by rw [entries v bound]; decide)
    have start : Apart d m own
        (({ m with oom := oom, freelist := rest } : Mem σ).setPage d fun _ => 0)
        (update own d .dir) := by
      refine Apart.of_change (fun f => f = d) ?_ ?_ ?_
      · rintro f rfl
        simp [space, free]
      · exact fun f other => update_of_ne other _ _
      · intro f other
        funext i
        simp [show f ≠ d from other]
    refine ⟨result, final, own', finished, owned',
      (start.trans apart).all owned (by simp [free]), queue, ?_, fun k calm enough => ?_⟩
    · rcases outcome with ⟨rfl, live, same, empty, -, covered⟩ | ⟨rfl, same⟩
      · refine .inl ⟨d, rfl, free, live, ?_, empty, covered⟩
        rw [same, kinds_update]
        rfl
      · refine .inr ⟨rfl, ?_⟩
        rw [same, kinds_update, update_idem, update_eq_self_iff]
        simp [kinds, free, Owner.kind]
    · obtain ⟨-, calm', fewer⟩ := kalloc_returns calm (by simp [shape]) taken
      obtain ⟨made, ample⟩ := progress k ⟨calm', by
        simp only [Mem.setPage] at fewer ⊢
        omega⟩
      rcases outcome with ⟨rfl, -⟩ | ⟨rfl, -⟩
      · exact ⟨d, rfl, ample⟩
      · exact absurd rfl made

/-! ## Growing an address space -/

theorem Owned.takePage (owned : Owned image m own) {d : Nat} {rest : List Nat} (oom : List Bool)
    (live : own d = .dir) (shape : m.freelist = f :: rest) (page : Nat → Word) :
    own f = .free ∧ Within image d 0 0 m own
      (({ m with oom := oom, freelist := rest } : Mem σ).setPage f page)
      (update own f .held) := by
  obtain ⟨free, owned₁⟩ := owned.take (o := .held) rfl (by simp) oom shape
  refine ⟨free, .of_loose owned (owned₁.fill (by simp [Owner.Structural]) page) live
    (by simp [space, free]) (fun g other => update_of_ne other _ _) ?_⟩
  intro g other
  funext i
  simp [show g ≠ f from other]

variable {high v : Nat}

/-- A frame taken, filled and handed to `mappages` for a page that is not there: the page is mapped,
or the frame is still in the caller's hands. -/
theorem Owned.newPage (owned : Owned image m own) {d : Nat} (live : own d = .dir)
    (user : v < userPages) (vacant : entry m d v = 0) (page : Nat → Word) {perm : Word}
    (small : perm.toNat < 4096) :
    (∃ oom, kalloc m = (none, { m with oom := oom }) ∧ ∀ k, ¬ Ample m d (k + 1)) ∨
      ∃ f m₁ done m₂ own₂, kalloc m = (some f, m₁) ∧ own f = .free ∧
        mappages (m₁.setPage f page) d (v * pgSize) pgSize f perm = .ok (done, m₂) ∧
        Within image d v (v + 1) m own m₂ own₂ ∧ m₂.queue = m.queue ∧
        ((done = true ∧ f < 2 ^ 20 ∧ entry m₂ d v = mappedEntry f perm ∧ m₂.word f = page ∧
            kinds own₂ = kinds own) ∨
          (done = false ∧ own₂ f = .held ∧ kinds (update own₂ f .free) = kinds own)) ∧
        ∀ k, Ample m d (k + 1) → done = true ∧ Ample m₂ d k := by
  rcases kalloc_cases m with ⟨oom, failed⟩ | ⟨oom, f, rest, shape, taken⟩
  · exact .inl ⟨oom, failed, fun k ample => absurd rfl (ample.takes failed).1⟩
  obtain ⟨free, start⟩ := owned.takePage oom live shape page
  obtain ⟨done, m₂, own₂, mapping, step, queue, words, outcome, progress⟩ := mappages_user start.owned
    start.live user (by rw [start.entries v (page_lt user) (by omega), vacant]; decide) (f := f)
    (by simp) perm small
  have back : update (kinds own) f .pool = kinds own := by
    rw [update_eq_self_iff]
    simp [kinds, free, Owner.kind]
  refine .inr ⟨f, _, done, m₂, own₂, taken, free, mapping,
    (start.widen (by omega) (by omega)).trans step, queue, ?_, fun k ample => ?_⟩
  · rcases outcome with ⟨rfl, -, shape₂, kind⟩ | ⟨rfl, held, -, kind⟩
    · refine .inl ⟨rfl, owned.frame_lt (by simp [free]), shape₂, ?_, ?_⟩
      · rw [words]
        funext i
        simp
      · rw [kind, kinds_update, update_idem, back]
    · refine .inr ⟨rfl, held, ?_⟩
      rw [kinds_update, kind, kinds_update, update_idem]
      exact back
  · obtain ⟨-, calm, fewer⟩ := ample.takes taken
    exact progress k (ample.take calm fewer start.tables)

theorem Owned.giveBack (owned : Owned image m own) {d : Nat} (live : own d = .dir)
    (held : own f = .held) :
    ∃ final, kfree image m f = .ok final ∧ final.queue = m.queue ∧
      Within image d 0 0 m own final (update own f .free) := by
  obtain ⟨final, freeing, queue, words, owned'⟩ := owned.release (f := f) (by rw [held]; rfl)
    (by simp [held])
  exact ⟨final, freeing, queue, .of_loose owned owned' live (by simp [space, held])
    (fun g other => update_of_ne other _ _) words⟩

/-- The entry of a page in a range that was vacant lies where it did before, or in a frame that was
free. -/
theorem Within.pteAt_fresh {d : Nat} {pte : PteAddr}
    (change : Within image d low high m own m' own') (owned : Owned image m own)
    (live : own d = .dir) (same : kinds own' pte.frame = kinds own pte.frame)
    (vacant : ∀ v, low ≤ v → v < high → mapped (entry m d v) = false) (bound : v < 2 ^ 20)
    (found : pteAt m' d v = some pte) : own pte.frame = .free ∨ pteAt m d v = some pte := by
  obtain ⟨label, index⟩ := change.owned.pteAt_table change.live bound found
  have kind : kinds own pte.frame = .pool := by
    rw [← same, kinds, label]
    rfl
  cases before : own pte.frame with
  | free => exact .inl rfl
  | table d' j =>
    right
    have mine : d' = d := by
      by_contra other
      have kept := (change.apart pte.frame d' (by simp [space, before]) other).1
      rw [label, before] at kept
      injection kept with directory
      exact other directory.symm
    subst mine
    obtain ⟨-, small, present⟩ := owned.tableBack d' j pte.frame before
    have after := change.owned.table d' j pte.frame change.live small
      (change.tables j pte.frame small present)
    rw [label] at after
    injection after with _ upper
    rw [pteAt, upper, present, ← index]
    rfl
  | user d' v' =>
    exfalso
    by_cases mine : d' = d
    · subst mine
      obtain ⟨-, -, isMapped, -⟩ := owned.userBack d' v' pte.frame before
      have outside : v' < low ∨ high ≤ v' := by
        by_contra inside
        rw [vacant v' (by omega) (by omega)] at isMapped
        simp at isMapped
      have kept := (change.contents pte.frame v' outside before).1
      simp [label] at kept
    · have kept := (change.apart pte.frame d' (by simp [space, before]) mine).1
      simp [label, before] at kept
  | dir | outside | held | kstack slot | pipe => simp [kinds, before, Owner.kind] at kind

/-- A page as `allocuvm` makes it: present, writable, accessible to the user and zero. -/
def Blank (m : Mem σ) (d v : Nat) : Prop :=
  ∃ f < 2 ^ 20, entry m d v = mappedEntry f (pteW ||| pteU) ∧ m.word f = fun _ => 0

theorem frameOf_blank (bound : f < 2 ^ 20) : frameOf (mappedEntry f (pteW ||| pteU)) = f :=
  frameOf_mappedEntry bound (by decide)

theorem Within.blank {d : Nat} (change : Within image d low high m own m' own')
    (owned : Owned image m own) (live : own d = .dir) (user : v < userPages)
    (outside : v < low ∨ high ≤ v) (blank : Blank m d v) : Blank m' d v := by
  obtain ⟨f, bound, shape, zero⟩ := blank
  have label := owned.user d v live user (by rw [shape]; exact mapped_mappedEntry f _)
  rw [shape, frameOf_blank bound] at label
  refine ⟨f, bound, ?_, ?_⟩
  · rw [change.entries v (page_lt user) outside, shape]
  · rw [(change.contents f v outside label).2, zero]

section Growth

variable {d oldsz newsz : Nat} (base : Owned image m own) (live : own d = .dir)
  (top : newsz < kernBase)
  (vacant : ∀ v, pagesBelow oldsz ≤ v → v < pagesBelow newsz → entry m d v = 0)

/-- The queue has no business with the entries of the pages from `low` up to `high`. -/
def QuietOn (ops : ClockOps σ) (queue : σ) (m : Mem σ) (d low high : Nat) : Prop :=
  ∀ v pte, low ≤ v → v < high → pteAt m d v = some pte → ops.remove queue pte = .ok queue

theorem Within.quietOn {low' high' : Nat} {ops : ClockOps σ} {queue : σ}
    (change : Within image d low high m own m' own') (bound : high' ≤ 2 ^ 20)
    (quiet : QuietOn ops queue m' d low' high') : QuietOn ops queue m d low' high' := by
  intro v pte lower upper found
  exact quiet v pte lower upper (change.pteAt_eq (by omega) found)

include top

/-- Failing after some pages, `allocuvm` frees them all. -/
theorem deallocuvm_undo
    (change : Within image d (pagesBelow oldsz) (pagesBelow newsz) m own m' own')
    (queue : m'.queue = m.queue) :
    ∃ size final own'', (∀ ops : ClockOps σ,
        QuietOn ops m.queue final d (pagesBelow oldsz) (pagesBelow newsz) →
        deallocuvm image ops m' d newsz oldsz = .ok (size, final)) ∧
      Within image d (pagesBelow oldsz) (pagesBelow newsz) m own final own'' ∧
      kinds own'' = kinds own' ∧ final.queue = m.queue ∧
      ∀ v, pagesBelow oldsz ≤ v → v < pagesBelow newsz → entry final d v = 0 := by
  obtain ⟨final, own'', freed, undone, kind, queue', cleared⟩ := deallocuvm_uniform oldsz
    change.owned change.live (Nat.le_of_lt top)
  have bound : pagesBelow newsz ≤ 2 ^ 20 := by
    unfold kernBase at top
    unfold pagesBelow
    omega
  refine ⟨if newsz ≤ oldsz then newsz else oldsz, final, own'', ?_, change.trans undone, kind,
    queue'.trans queue, cleared⟩
  intro ops quiet
  apply freed ops
  intro v pte lower upper found _
  rw [queue]
  exact undone.quietOn bound quiet v pte lower upper found

/-- The loop of `allocuvm` from page `v` on, in a memory that has changed since the call. -/
theorem allocuvmLoop_spec (rounds v : Nat) (sum : v + rounds = pagesBelow newsz)
    (lower : pagesBelow oldsz ≤ v) {now : Mem σ} {label : Nat → Owner}
    (change : Within image d (pagesBelow oldsz) (pagesBelow newsz) m own now label)
    (same : kinds label = kinds own) (queue : now.queue = m.queue)
    (ahead : ∀ v', v ≤ v' → v' < pagesBelow newsz → entry now d v' = 0)
    (behind : ∀ v', pagesBelow oldsz ≤ v' → v' < v → Blank now d v') :
    ∃ done final own', (∀ ops : ClockOps σ, (done = false →
          QuietOn ops m.queue final d (pagesBelow oldsz) (pagesBelow newsz)) →
        allocuvmLoop image ops d oldsz newsz rounds now (v * pgSize) = .ok (done, final)) ∧
      Within image d (pagesBelow oldsz) (pagesBelow newsz) m own final own' ∧
      kinds own' = kinds own ∧ final.queue = m.queue ∧
      ((done = true ∧ ∀ v', pagesBelow oldsz ≤ v' → v' < pagesBelow newsz → Blank final d v') ∨
        (done = false ∧
          ∀ v', pagesBelow oldsz ≤ v' → v' < pagesBelow newsz → entry final d v' = 0)) ∧
      ∀ k, Ample now d (rounds + k) → done = true ∧ Ample final d k := by
  induction rounds generalizing v now label with
  | zero =>
    refine ⟨true, now, label, fun _ _ => rfl, change, same, queue,
      .inl ⟨rfl, fun v' lower' upper => ?_⟩, fun k ample => ⟨rfl, by simpa using ample⟩⟩
    exact behind v' lower' (by omega)
  | succ rounds ih =>
    simp only [allocuvmLoop]
    have reach : v < pagesBelow newsz := by omega
    have inside : pagesBelow newsz ≤ userPages := by
      unfold kernBase at top
      unfold pagesBelow userPages
      omega
    have user : v < userPages := by omega
    rcases change.owned.newPage change.live user (ahead v le_rfl reach) (fun _ => 0)
      (show (pteW ||| pteU).toNat < 4096 by decide) with ⟨oom, failed, short⟩ |
        ⟨mem, m₁, done, m₂, own₂, taken, free, mapping, step, queue₂, outcome, progress⟩
    · have idle : Within image d (pagesBelow oldsz) (pagesBelow newsz) m own
          { now with oom := oom } label :=
        { change with owned := change.owned.of_oom oom }
      obtain ⟨size, final, own', freed, undone, kind, queue', cleared⟩ := deallocuvm_undo top idle
        queue
      simp only [failed]
      refine ⟨false, final, own', ?_, undone, kind.trans same, queue', .inr ⟨rfl, cleared⟩, ?_⟩
      · intro ops quiet
        rw [freed ops (quiet rfl), ok_bind]
      · intro k ample
        rw [Nat.add_right_comm] at ample
        exact absurd ample (short _)
    have change₂ := change.trans (step.widen (by omega) (by omega))
    have ahead₂ : ∀ k, Ample now d (rounds + 1 + k) → done = true ∧ Ample m₂ d (rounds + k) := by
      intro k ample
      rw [Nat.add_right_comm] at ample
      exact progress _ ample
    simp only [taken, mapping, ok_bind]
    rcases outcome with ⟨rfl, small, shape, words, kind⟩ | ⟨rfl, held, kind⟩
    · have next : v * pgSize + pgSize = (v + 1) * pgSize := by
        unfold pgSize
        omega
      simp only [↓reduceIte, next]
      have zeros : ∀ v', v + 1 ≤ v' → v' < pagesBelow newsz → entry m₂ d v' = 0 := by
        intro v' lower' upper
        rw [step.entries v' (page_lt (by omega)) (by omega)]
        exact ahead v' (by omega) upper
      have blanks : ∀ v', pagesBelow oldsz ≤ v' → v' < v + 1 → Blank m₂ d v' := by
        intro v' lower' upper
        by_cases last : v' = v
        · subst last
          exact ⟨mem, small, shape, words⟩
        · exact step.blank change.owned change.live (by omega) (by omega)
            (behind v' lower' (by omega))
      obtain ⟨done', final, own', looped, facts, kind', queue', outcome', progress'⟩ := ih (v + 1)
        (by omega) (by omega) change₂ (kind.trans same) (queue₂.trans queue) zeros blanks
      exact ⟨done', final, own', looped, facts, kind', queue', outcome',
        fun k ample => progress' k (ahead₂ k ample).2⟩
    · obtain ⟨size, m₃, own₃, freed, undone, kind₃, queue₃, cleared⟩ := deallocuvm_undo top change₂
        (queue₂.trans queue)
      obtain ⟨final, freeing, queue₄, last⟩ := undone.owned.giveBack undone.live
        ((kinds_label (congrFun kind₃ mem)).2.mp held)
      simp only [Bool.false_eq_true, ↓reduceIte]
      refine ⟨false, final, _, ?_, undone.trans (last.widen (by omega) (by omega)), ?_,
        queue₄.trans queue₃, .inr ⟨rfl, fun v' lower' upper => ?_⟩,
        fun k ample => by simpa using (ahead₂ k ample).1⟩
      · intro ops quiet
        rw [freed ops (last.quietOn (by unfold userPages at inside; omega) (quiet rfl))]
        simp only [ok_bind, freeing]
      · rw [kinds_update, kind₃, ← kinds_update, kind, same]
      · rw [last.entries v' (page_lt (by omega)) (by omega)]
        exact cleared v' lower' upper

include base live vacant

/-- `allocuvm` maps blank pages between the two sizes, or fails and leaves no page there, in the same
way for every queue that has no business with the page tables. -/
theorem allocuvm_uniform (order : oldsz ≤ newsz) :
    ∃ done final own', (∀ ops : ClockOps σ, (done = false →
          QuietOn ops m.queue final d (pagesBelow oldsz) (pagesBelow newsz)) →
        allocuvm image ops m d oldsz newsz = .ok (if done then newsz else 0, final)) ∧
      Within image d (pagesBelow oldsz) (pagesBelow newsz) m own final own' ∧
      kinds own' = kinds own ∧ final.queue = m.queue ∧
      ((done = true ∧ ∀ v, pagesBelow oldsz ≤ v → v < pagesBelow newsz → Blank final d v) ∨
        (done = false ∧
          ∀ v, pagesBelow oldsz ≤ v → v < pagesBelow newsz → entry final d v = 0)) ∧
      ∀ k, Ample m d (pagesBelow newsz - pagesBelow oldsz + k) → done = true ∧ Ample final d k := by
  have round : pgRoundUp oldsz = pagesBelow oldsz * pgSize := pgRoundUp_eq (by omega)
  have rounds : pagesBelow oldsz + pageCount (pagesBelow oldsz * pgSize) newsz =
      pagesBelow newsz := by
    unfold pagesBelow pageCount pgSize
    omega
  obtain ⟨done, final, own', looped, change, same, queue, outcome, progress⟩ := allocuvmLoop_spec
    top _ _ rounds le_rfl (.refl _ _ base live) rfl rfl vacant
    (fun v' _ _ => by omega)
  refine ⟨done, final, own', fun ops quiet => ?_, change, same, queue, outcome,
    fun k ample => progress k ?_⟩
  · rw [allocuvm, if_neg (by omega), if_neg (by omega), round, looped ops quiet, ok_bind]
  · rwa [← Nat.eq_sub_of_add_eq' rounds] at ample

end Growth

/-- `allocuvm` maps blank pages between the two sizes, or fails and leaves no page there. -/
theorem allocuvm_spec (ops : ClockOps σ) {d oldsz newsz : Nat} (base : Owned image m own)
    (live : own d = .dir) (top : newsz < kernBase)
    (vacant : ∀ v, pagesBelow oldsz ≤ v → v < pagesBelow newsz → entry m d v = 0)
    (quiet : ∀ pte, own pte.frame = .free ∨ (∃ v, pagesBelow oldsz ≤ v ∧ v < pagesBelow newsz ∧
      pteAt m d v = some pte) → ops.remove m.queue pte = .ok m.queue) (order : oldsz ≤ newsz) :
    ∃ done final own', allocuvm image ops m d oldsz newsz =
        .ok (if done then newsz else 0, final) ∧
      Within image d (pagesBelow oldsz) (pagesBelow newsz) m own final own' ∧
      kinds own' = kinds own ∧ final.queue = m.queue ∧
      ((done = true ∧ ∀ v, pagesBelow oldsz ≤ v → v < pagesBelow newsz → Blank final d v) ∨
        (done = false ∧
          ∀ v, pagesBelow oldsz ≤ v → v < pagesBelow newsz → entry final d v = 0)) ∧
      ∀ k, Ample m d (pagesBelow newsz - pagesBelow oldsz + k) → done = true ∧ Ample final d k := by
  obtain ⟨done, final, own', grown, change, same, facts⟩ := allocuvm_uniform base live top vacant
    order
  refine ⟨done, final, own', grown ops fun _ v pte lower upper found => quiet pte ?_, change, same,
    facts⟩
  have bound : v < 2 ^ 20 := by
    unfold pagesBelow at upper
    unfold kernBase at top
    omega
  rcases change.pteAt_fresh base live (congrFun same pte.frame) (fun v lower upper => by
    rw [vacant v lower upper]
    decide) bound found with free | before
  · exact .inl free
  · exact .inr ⟨v, lower, upper, before⟩


/-! ## Copying an address space -/

theorem pteFlags_lt (word : Word) : (pteFlags word).toNat < 4096 := by
  rw [pteFlags, BitVec.toNat_and]
  exact Nat.lt_succ_of_le Nat.and_le_right

/-- Frames that a new address space has taken, or that are free again, come from the free list. -/
theorem Apart.fresh {d : Nat} (apart : Apart d m own m' own') (owned : Owned image m own)
    (absent : own d ≠ .dir) (part : space own' f = none ∨ space own' f = some d)
    (kind : kinds own f = .pool) : own f = .free := by
  have loose : space own f = none := by
    cases before : space own f with
    | none => rfl
    | some d' =>
      have kept := (apart.all owned absent (d' + 1) f d' before (by omega)).1
      have live := owned.space_live before
      have after : space own' f = some d' := by rw [space, kept, ← space, before]
      rcases part with none | mine
      · simp [none] at after
      · rw [mine] at after
        obtain rfl : d = d' := Option.some.inj after
        exact absurd live absent
  unfold space at loose
  cases before : own f with
  | free => rfl
  | table d' j | user d' v | dir => simp [before] at loose
  | outside | held | kstack slot | pipe => simp [kinds, before, Owner.kind] at kind

/-- A page as `copyuvm` makes it: the flags and the bytes of the parent's page in a new frame. -/
def Copied (m : Mem σ) (p : Nat) (m' : Mem σ) (d v : Nat) : Prop :=
  mapped (entry m p v) = true ∧ ∃ f < 2 ^ 20, entry m' d v = mappedEntry f (pteFlags (entry m p v)) ∧
    m'.word f = m.word (frameOf (entry m p v))

theorem Within.copied {first : Mem σ} {p d : Nat} (change : Within image d low high m own m' own')
    (owned : Owned image m own) (live : own d = .dir) (user : v < userPages)
    (outside : v < low ∨ high ≤ v) (copied : Copied first p m d v) : Copied first p m' d v := by
  obtain ⟨isMapped, f, bound, shape, bytes⟩ := copied
  have label := owned.user d v live user (by rw [shape]; exact mapped_mappedEntry f _)
  rw [shape, frameOf_mappedEntry bound (pteFlags_lt _)] at label
  refine ⟨isMapped, f, bound, ?_, ?_⟩
  · rw [change.entries v (page_lt user) outside, shape]
  · rw [(change.contents f v outside label).2, bytes]

section Copy

variable (ops : ClockOps σ) {p d sz : Nat} (base : Owned image m own) (parent : own p = .dir)
  (fresh : own d = .free) (top : sz ≤ kernBase)
  (quiet : ∀ pte, own pte.frame = .free → ops.remove m.queue pte = .ok m.queue)

include fresh

/-- Giving up an address space that has been made of free frames makes them free again. -/
theorem freevm_undo (owned : Owned image m' own') (live : own' d = .dir)
    (apart : Apart d m own m' own') (same : kinds own' = update (kinds own) d .dir)
    (queue : m'.queue = m.queue) (calm : QuietOn ops m.queue m' d 0 userPages) :
    ∃ final own'', freevm image ops m' d = .ok final ∧ Owned image final own'' ∧
      Apart d m own final own'' ∧ final.queue = m.queue ∧ kinds own'' = kinds own := by
  obtain ⟨final, own'', freed, owned'', apart', kind, queue'⟩ := freevm_spec ops owned live
    (fun v pte user found _ => by
      rw [queue]
      exact calm v pte (Nat.zero_le v) user found)
  refine ⟨final, own'', freed, owned'', apart.trans apart', queue'.trans queue, ?_⟩
  rw [kind, same, update_idem, update_eq_self_iff]
  simp [kinds, fresh, Owner.kind]

include base quiet

/-- A queue that has no business with free frames has none with an address space made of them. -/
theorem Apart.quietOn (owned : Owned image m' own') (live : own' d = .dir)
    (apart : Apart d m own m' own') (same : kinds own' = update (kinds own) d .dir) :
    QuietOn ops m.queue m' d 0 userPages := by
  intro v pte _ user found
  obtain ⟨label, -⟩ := owned.pteAt_table live (page_lt user) found
  have other : pte.frame ≠ d := by
    intro same
    rw [same, live] at label
    simp at label
  refine quiet pte (apart.fresh base (by simp [fresh]) (.inr (by simp [space, label])) ?_)
  have kind := congrFun same pte.frame
  rw [update_of_ne other] at kind
  rw [← kind, kinds, label]
  rfl

include parent top

theorem copyuvmLoop_spec (rounds v : Nat) (sum : v + rounds = pagesBelow sz) {now : Mem σ}
    {label : Nat → Owner} (owned : Owned image now label) (live : label d = .dir)
    (apart : Apart d m own now label) (same : kinds label = update (kinds own) d .dir)
    (queue : now.queue = m.queue) (ahead : ∀ v', v ≤ v' → v' < userPages → entry now d v' = 0)
    (behind : ∀ v' < v, Copied m p now d v') {upper : Nat → Word}
    (kernel : ∀ v', userPages ≤ v' → v' < 2 ^ 20 → entry now d v' = upper v') :
    (∃ result final own', copyuvmLoop image ops p d rounds now (v * pgSize) =
        .ok (result, final) ∧ Owned image final own' ∧ Apart d m own final own' ∧
      final.queue = m.queue ∧
      ((result = some d ∧ own' d = .dir ∧ kinds own' = update (kinds own) d .dir ∧
          (∀ v' < pagesBelow sz, Copied m p final d v') ∧
          (∀ v', pagesBelow sz ≤ v' → v' < userPages → entry final d v' = 0) ∧
          ∀ v', userPages ≤ v' → v' < 2 ^ 20 → entry final d v' = upper v') ∨
        (result = none ∧ kinds own' = kinds own)) ∧
      (Ample now d rounds → result ≠ none)) ∨
    ∃ message v', copyuvmLoop image ops p d rounds now (v * pgSize) = .error (.panic message) ∧
      v' < pagesBelow sz ∧ mapped (entry m p v') = false := by
  have distinct : p ≠ d := by
    rintro rfl
    simp [fresh] at parent
  induction rounds generalizing v now label with
  | zero =>
    refine .inl ⟨some d, now, label, rfl, owned, apart, queue, .inl ⟨rfl, live, same, ?_, ?_, kernel⟩,
      by simp⟩
    · exact fun v' upper => behind v' (by omega)
    · exact fun v' lower upper => ahead v' (by omega) upper
  | succ rounds ih =>
    obtain ⟨parentLive, addresses, entries, contents⟩ := apart.lookups base parent distinct
    have reach : v < pagesBelow sz := by omega
    have user : v < userPages := by
      unfold pagesBelow at reach
      unfold kernBase at top
      unfold userPages
      omega
    rw [copyuvmLoop, walkpgdir_page now p (page_lt user), addresses v]
    cases isMapped : mapped (entry m p v) with
    | false =>
      right
      cases found : pteAt m p v with
      | none => exact ⟨_, v, rfl, reach, isMapped⟩
      | some pte =>
        have value : now.get pte = entry m p v := by
          rw [← entries v (page_lt user), entry, addresses v, found]
          rfl
        simp only [value, isMapped, Bool.not_false, ↓reduceIte]
        exact ⟨_, v, rfl, reach, isMapped⟩
    | true =>
      obtain ⟨pte, found, -⟩ := exists_pteAt isMapped
      have value : now.get pte = entry m p v := by
        rw [← entries v (page_lt user), entry, addresses v, found]
        rfl
      have mine := base.user p v parent user isMapped
      simp only [found, value, isMapped, Bool.not_true, Bool.false_eq_true, ↓reduceIte]
      rcases owned.newPage live user (ahead v le_rfl user) (now.word (frameOf (entry m p v)))
        (pteFlags_lt (entry m p v)) with ⟨oom, failed, short⟩ |
          ⟨mem, m₁, done, m₂, own₂, taken, free, mapping, step, queue₂, outcome, progress⟩
      · have idle : Apart d m own { now with oom := oom } label :=
          fun f d' part other => apart f d' part other
        obtain ⟨final, own', freed, owned', apart', queue', kind⟩ := freevm_undo ops fresh
          (owned.of_oom oom) live idle same queue
          (idle.quietOn ops base fresh quiet (owned.of_oom oom) live same)
        simp only [failed, freed, ok_bind]
        exact .inl ⟨none, final, own', rfl, owned', apart', queue', .inr ⟨rfl, kind⟩,
          fun ample => absurd ample (short _)⟩
      have apart₂ := apart.trans step.apart
      have source : m₁.word (frameOf (entry m p v)) = now.word (frameOf (entry m p v)) := by
        rcases kalloc_cases now with ⟨_, failed⟩ | ⟨_, _, _, -, taken'⟩
        · simp [failed] at taken
        · rw [taken'] at taken
          rw [← (Prod.mk.inj taken).2]
      simp only [taken, source, mapping, ok_bind]
      rcases outcome with ⟨rfl, small, shape, words, kind⟩ | ⟨rfl, held, kind⟩
      · have next : v * pgSize + pgSize = (v + 1) * pgSize := by
          unfold pgSize
          omega
        simp only [↓reduceIte, next]
        have zeros : ∀ v', v + 1 ≤ v' → v' < userPages → entry m₂ d v' = 0 := by
          intro v' lower upper
          rw [step.entries v' (page_lt upper) (by omega)]
          exact ahead v' (by omega) upper
        have copies : ∀ v' < v + 1, Copied m p m₂ d v' := by
          intro v' upper
          by_cases last : v' = v
          · subst last
            refine ⟨isMapped, mem, small, shape, ?_⟩
            rw [words, (contents _ v' mine).2]
          · exact step.copied owned live (by omega) (by omega) (behind v' (by omega))
        have half : ∀ v', userPages ≤ v' → v' < 2 ^ 20 → entry m₂ d v' = upper v' := by
          intro v' lower bound
          rw [step.entries v' bound (by omega)]
          exact kernel v' lower bound
        refine (ih (v + 1) (by omega) step.owned step.live apart₂ (kind.trans same)
          (queue₂.trans queue) zeros copies half).imp ?_ id
        rintro ⟨result, final, own', looped, owned', apart', queue', outcome, made⟩
        exact ⟨result, final, own', looped, owned', apart', queue', outcome,
          fun ample => made (progress _ ample).2⟩
      · obtain ⟨m₃, freeing, queue₃, last⟩ := step.owned.giveBack step.live held
        have undone := apart₂.trans last.apart
        obtain ⟨final, own', freed, owned', apart', queue', kind'⟩ := freevm_undo ops fresh
          last.owned last.live undone (kind.trans same) (queue₃.trans (queue₂.trans queue))
          (undone.quietOn ops base fresh quiet last.owned last.live (kind.trans same))
        simp only [Bool.false_eq_true, ↓reduceIte, freeing, freed, ok_bind]
        exact .inl ⟨none, final, own', rfl, owned', apart', queue', .inr ⟨rfl, kind'⟩,
          fun ample => by simpa using (progress _ ample).1⟩

end Copy

/-- `copyuvm` makes a copy of the parent's pages in free frames, or fails and keeps none of them;
it stops if one of the parent's pages is missing. -/
theorem copyuvm_spec (ops : ClockOps σ) {p sz : Nat} (owned : Owned image m own)
    (parent : own p = .dir) (top : sz ≤ kernBase)
    (quiet : ∀ pte, own pte.frame = .free → ops.remove m.queue pte = .ok m.queue) :
    (∃ result final own', copyuvm image ops m p sz = .ok (result, final) ∧
      Owned image final own' ∧ (∀ e, Apart e m own final own') ∧ final.queue = m.queue ∧
      ((∃ d, result = some d ∧ own d = .free ∧ own' d = .dir ∧
          kinds own' = update (kinds own) d .dir ∧
          (∀ v < pagesBelow sz, Copied m p final d v) ∧
          (∀ v, pagesBelow sz ≤ v → v < userPages → entry final d v = 0) ∧
          ∃ m₁, setupkvm image ops m = .ok (some d, m₁) ∧
            ∀ v, userPages ≤ v → v < 2 ^ 20 → entry final d v = entry m₁ d v) ∨
        (result = none ∧ kinds own' = kinds own)) ∧
      (m.oom = [] → 1025 + pagesBelow sz ≤ m.freelist.length → result ≠ none)) ∨
    ∃ message v, copyuvm image ops m p sz = .error (.panic message) ∧ v < pagesBelow sz ∧
      mapped (entry m p v) = false := by
  obtain ⟨result, m₁, own₁, made, owned₁, apart, queue, outcome, progress⟩ :=
    setupkvm_spec owned
  rw [copyuvm, made]
  simp only [ok_bind]
  rcases outcome with ⟨d, rfl, fresh, live, same, empty, -⟩ | ⟨rfl, same⟩
  · have rounds : 0 + pageCount 0 sz = pagesBelow sz := by
      unfold pageCount pagesBelow
      omega
    rcases copyuvmLoop_spec ops owned parent fresh top quiet _ _ rounds owned₁ live (apart d) same
      queue (fun v' _ upper => empty v' upper) (fun v' upper => by omega) (fun _ _ _ => rfl) with
      ⟨result, final, own', looped, owned', apart', queue', outcome, whole⟩ |
        ⟨message, v, looped, facts⟩
    · rw [Nat.zero_mul] at looped
      refine .inl ⟨result, final, own', looped, owned',
        apart'.all owned (by simp [fresh]), queue', ?_, fun calm enough => whole ?_⟩
      · rcases outcome with ⟨rfl, live', same', copied, rest, kernel⟩ | failed
        · exact .inl ⟨d, rfl, fresh, live', same', copied, rest, m₁, rfl, kernel⟩
        · exact .inr failed
      · obtain ⟨d', same', ample⟩ := progress (pagesBelow sz) calm enough
        cases same'
        rwa [← Nat.zero_add (pageCount 0 sz), rounds]
    · rw [Nat.zero_mul] at looped
      exact .inr ⟨message, v, looped, facts⟩
  · refine .inl ⟨none, m₁, own₁, rfl, owned₁, apart, queue, .inr ⟨rfl, same⟩,
      fun calm enough => ?_⟩
    obtain ⟨d, made', -⟩ := progress (pagesBelow sz) calm enough
    simp at made'

end MemoryEncryption
