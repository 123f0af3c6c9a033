import MemoryEncryption.Verif.ExecImage
import MemoryEncryption.Verif.PageReports

/-!
# What `getpgtable` reports as the working set

With `wsetOnly`, `getpgtable` decides from a page's entry whether the page is in the
working set. For a page that user code can reach this agrees with the clock queue, also
while the call itself decrypts and evicts pages of its buffer. The guard page below the
stack is present without ever having been in the queue, and is reported as well.
-/

namespace MemoryEncryption

open Outcome

variable {image : Image} {own : Nat → Owner} {spaces : Nat → Prop} {d : Nat}
  {m m' : Mem (Queue PteAddr)} {s s' : Machine (Queue PteAddr)} {family : Nat → Prop}

/-! ## The invariant of a process -/

/-- A memory in which the open pages of the current process are in its queue. -/
structure Tracked (image : Image) (own : Nat → Owner) (spaces : Nat → Prop) (d : Nat)
    (m : Mem (Queue PteAddr)) : Prop where
  owned : Owned image m own
  live : ∀ e, spaces e → own e = .dir
  inside : spaces d
  sound : m.queue.Sound m spaces d
  aligned : m.queue.Aligned m spaces
  covered : Covered m d m.queue
  one : ∀ v < userPages, mapped (entry m d v) = true → exactlyOne (entry m d v) = true

theorem Tracked.hides (tracked : Tracked image own spaces d m) (change : Recoded image own m m')
    (hides : Hides own m m') (keeps : KeepsOne own m m') (queue : m'.queue = m.queue) :
    Tracked image own spaces d m' := by
  have dir := tracked.live d tracked.inside
  refine ⟨change.owned, tracked.live, tracked.inside, ?_, ?_, ?_, fun v user isMapped => ?_⟩
  · rw [queue]
    exact tracked.sound.recoded tracked.live dir change
  · rw [queue]
    exact tracked.aligned.stays tracked.live (fun _ part => part) change.stays
  · rw [queue]
    exact fun v user exposed => tracked.covered v user (hides d v dir (page_lt user) exposed)
  · rw [change.maps d v dir user] at isMapped
    exact keeps d v dir user (tracked.one v user isMapped)

variable {va : Nat}

theorem Tracked.mdecrypt (tracked : Tracked image own spaces d m)
    (served : mdecrypt clockOps m d va = .ok (true, m')) :
    Recoded image own m m' ∧ Tracked image own spaces d m' := by
  have dir := tracked.live d tracked.inside
  rcases mdecrypt_spec va tracked.owned tracked.live tracked.inside tracked.sound with
    ⟨failed, -⟩ | ⟨final, done, recoded, sound, facts⟩
  · rw [served] at failed
    simp at failed
  rw [served] at done
  cases done
  obtain ⟨aligned, covered⟩ :=
    facts.insert tracked.live tracked.inside recoded tracked.aligned tracked.covered
  refine ⟨recoded, recoded.owned, tracked.live, tracked.inside, sound, aligned, covered,
    fun v bound isMapped' => ?_⟩
  rw [recoded.maps d v dir bound] at isMapped'
  exact facts.keepsOne d v dir bound (tracked.one v bound isMapped')

/-! ## Writes to the buffer -/

theorem Tracked.touch (tracked : Tracked image own spaces d m) {tries frame : Nat}
    (bound : va < kernBase) (touched : touch clockOps d va tries m = .ok (frame, m')) :
    Recoded image own m m' ∧ Tracked image own spaces d m' ∧
      mapped (entry m' d (va / pgSize)) = true ∧ frame = frameOf (entry m' d (va / pgSize)) := by
  have dir := tracked.live d tracked.inside
  have short := lt_word bound
  induction tries generalizing m with
  | zero =>
    rw [MemoryEncryption.touch] at touched
    contradiction
  | succ tries ih =>
    by_cases present : has (entry m d (va / pgSize)) pteP = true
    · obtain ⟨marked, touched', recoded, preserved, hides, still⟩ :=
        touch_marks tracked.owned dir tries bound present
      rw [touched] at touched'
      cases touched'
      refine ⟨recoded, tracked.hides recoded hides preserved.keepsOne still.queue, ?_, rfl⟩
      rw [mapped_iff, ← has_pteP, (still.flags _ (page_lt (page_of_va bound))).1, present,
        Bool.true_or]
    · rw [touch_absent short (Bool.eq_false_iff.mpr present)] at touched
      obtain ⟨⟨done, m₁⟩, served, touched⟩ := bind_eq_ok.mp touched
      cases done with
      | false => simp at touched
      | true =>
        obtain ⟨recoded, tracked₁⟩ := tracked.mdecrypt served
        obtain ⟨recoded', rest⟩ := ih tracked₁ touched
        exact ⟨recoded.trans recoded', rest⟩

theorem Tracked.patchByte (tracked : Tracked image own spaces d m) {mask value : BitVec 8}
    (bound : va < kernBase) (patched : patchByte clockOps d va mask value m = .ok m') :
    Recoded image own m m' ∧ Tracked image own spaces d m' := by
  have dir := tracked.live d tracked.inside
  rw [MemoryEncryption.patchByte] at patched
  obtain ⟨⟨frame, m₁⟩, touched, patched⟩ := bind_eq_ok.mp patched
  obtain ⟨recoded, tracked₁, isMapped, rfl⟩ := tracked.touch bound touched
  obtain ⟨stored, entries⟩ := tracked₁.owned.setBytes_recoded dir (page_of_va bound) isMapped
    (va % pgSize) [replaceIn (m₁.byte (frameOf (entry m₁ d (va / pgSize))) (va % pgSize)) mask value]
  have written : m₁.setBytes (frameOf (entry m₁ d (va / pgSize))) (va % pgSize)
      [replaceIn (m₁.byte (frameOf (entry m₁ d (va / pgSize))) (va % pgSize)) mask value] = m' :=
    Except.ok.inj patched
  rw [written] at stored entries
  refine ⟨recoded.trans stored, tracked₁.hides stored ?_ ?_ (by rw [← written]; rfl)⟩
  · intro e v live small exposed
    rwa [Exposed, entries e v live small] at exposed
  · intro e v live user one
    rwa [entries e v live (page_lt user)]

theorem Tracked.patchWord (tracked : Tracked image own spaces d m) {n : Nat} {mask value : Word}
    (top : va + n ≤ kernBase) (patched : patchWord clockOps d va mask value n m = .ok m') :
    Recoded image own m m' ∧ Tracked image own spaces d m' := by
  induction n generalizing m' with
  | zero =>
    cases patched
    exact ⟨.refl tracked.owned, tracked⟩
  | succ n ih =>
    rw [MemoryEncryption.patchWord] at patched
    obtain ⟨m₁, before, last⟩ := bind_eq_ok.mp patched
    obtain ⟨recoded, tracked₁⟩ := ih (by omega) before
    rw [Nat.mod_eq_of_lt (show va + n < 2 ^ 32 by unfold kernBase at top; omega)] at last
    obtain ⟨recoded', tracked'⟩ := tracked₁.patchByte (by omega) last
    exact ⟨recoded.trans recoded', tracked'⟩

theorem Tracked.assignFields (tracked : Tracked image own spaces d m) {address page : Nat}
    {pte : PteAddr} {fields : List PtField} {words : List Word}
    (top : address + ptEntrySize ≤ kernBase)
    (offsets : ∀ field ∈ fields, field.offset + 4 ≤ ptEntrySize)
    (assigns : assignFields clockOps d address page pte fields m = .ok (words, m')) :
    Recoded image own m m' ∧ Tracked image own spaces d m' := by
  induction fields generalizing m words with
  | nil =>
    cases assigns
    exact ⟨.refl tracked.owned, tracked⟩
  | cons field rest ih =>
    have fits := offsets field (by simp)
    rw [MemoryEncryption.assignFields] at assigns
    obtain ⟨m₁, patched, assigns⟩ := bind_eq_ok.mp assigns
    obtain ⟨⟨further, m₂⟩, later, assigns⟩ := bind_eq_ok.mp assigns
    cases assigns
    rw [Nat.mod_eq_of_lt (show address + field.offset < 2 ^ 32 by unfold kernBase at top; omega)]
      at patched
    obtain ⟨recoded, tracked₁⟩ := tracked.patchWord (by omega) patched
    obtain ⟨recoded', tracked'⟩ :=
      ih tracked₁ (fun other listed => offsets other (by simp [listed])) later
    exact ⟨recoded.trans recoded', tracked'⟩

/-! ## Reports -/

/-- The page of a report is in the queue as it was when the page was found. -/
def Held (report : Report (Queue PteAddr)) : Prop :=
  ∃ i < clockSize, (report.queue.slot i).empty ≠ -1 ∧
    (report.queue.slot i).va / pgSize = report.page

/-- The loop of `getpgtable` with `wsetOnly`: a reported page that user code can reach is in the
queue. -/
theorem Tracked.getpgtableLoop (tracked : Tracked image own spaces d m) {entries page index : Nat}
    {num : Int} (small : page < 2 ^ 20) (top : entries + ptEntrySize * num.toNat ≤ kernBase) :
    ∀ report ∈ (getpgtableLoop clockOps d entries num true page index m).1,
      report.page ≤ page ∧ (has (entry m d report.page) pteU = true → Held report) := by
  have dir := tracked.live d tracked.inside
  induction page generalizing index m with
  | zero => simp [MemoryEncryption.getpgtableLoop]
  | succ page ih =>
    have below : ∀ report ∈ (MemoryEncryption.getpgtableLoop clockOps d entries num true page index
        m).1, report.page ≤ page + 1 ∧ (has (entry m d report.page) pteU = true → Held report) :=
      fun report listed => (ih tracked (by omega) report listed).imp Nat.le_succ_of_le id
    intro report listed
    rw [MemoryEncryption.getpgtableLoop, walkpgdir_page m d small] at listed
    split at listed
    case isFalse => simp at listed
    rename_i wanted
    split at listed
    case h_1 => exact below report listed
    rename_i pte found
    change pteAt m d (page + 1) = some pte at found
    split at listed
    case isFalse => exact below report listed
    rename_i chosen
    have value := get_pteAt found
    have here : has (entry m d (page + 1)) pteU = true →
        page + 1 < userPages ∧ Exposed m d (page + 1) := by
      intro reachable
      have user : page + 1 < userPages := by
        by_contra high
        rw [has_pteU, tracked.owned.kernel d _ dir (by omega) small] at reachable
        contradiction
      have inSet : petInSet (m.get pte) = true := chosen.2
      rw [value, petInSet] at inSet
      obtain ⟨present, -⟩ := Bool.and_eq_true_iff.mp inSet
      have one := tracked.one _ user (by rw [mapped_iff, ← has_pteP, present, Bool.true_or])
      rw [exactlyOne, present] at one
      exact ⟨user, present, by simpa using one, reachable⟩
    have first : ∀ address words, report = ⟨address, page + 1, m.queue, words⟩ →
        report.page ≤ page + 1 ∧ (has (entry m d report.page) pteU = true → Held report) := by
      rintro address words rfl
      exact ⟨Nat.le_refl _,
        fun reachable => tracked.covered _ (here reachable).1 (here reachable).2⟩
    have room : entries + ptEntrySize * index + ptEntrySize ≤ kernBase := by
      unfold ptEntrySize at *
      omega
    dsimp only at listed
    split at listed
    · exact first _ _ (List.mem_singleton.mp listed)
    · rename_i words m₁ assigns
      rw [Nat.mod_eq_of_lt (show _ < 2 ^ 32 by unfold kernBase at room; omega)] at assigns
      obtain ⟨recoded, tracked₁⟩ := tracked.assignFields room (by decide) assigns
      rcases List.mem_cons.mp listed with same | later
      · exact first _ _ same
      · obtain ⟨lower, held⟩ := ih tracked₁ (by omega) report later
        refine ⟨Nat.le_succ_of_le lower, fun reachable => held ?_⟩
        have flags := recoded.entries d report.page dir (by omega)
        rw [has_pteU, user_of_codeFlags flags, ← has_pteU]
        exact reachable

/-! ## Runs -/

/-- The mapped pages of a family have exactly one of the two flags. -/
def OneFlags (s : Machine (Queue PteAddr)) (family : Nat → Prop) : Prop :=
  ∀ q, family q → ∀ v < userPages, mapped (entry s.mem (s.proc q).pgdir v) = true →
    exactlyOne (entry s.mem (s.proc q).pgdir v) = true

theorem OneFlags.recoded (one : OneFlags s family) (watched : Watched image s own family)
    (change : Recoded image own s.mem s'.mem) (keeps : KeepsOne own s.mem s'.mem)
    (pgdirs : ∀ q, family q → (s'.proc q).pgdir = (s.proc q).pgdir) : OneFlags s' family := by
  intro q inFamily v user isMapped
  have dir := watched.sane.live (watched.guarded q inFamily).member
  rw [pgdirs q inFamily] at isMapped ⊢
  rw [change.maps _ v dir user] at isMapped
  exact keeps _ v dir user (one q inFamily v user isMapped)

theorem step_oneFlags (watched : Watched image s own family) (one : OneFlags s family)
    {action : Action} (allowed : Confined family s action)
    (taken : s.step image clockOps action = .ok s') :
    OneFlags s' (descendants family s s' action) := by
  obtain ⟨spaces, -, ⟨_, taken', effect⟩ | ⟨_, stopped, -⟩⟩ := watched.effect allowed
  swap
  · rw [taken] at stopped
    simp at stopped
  rw [taken] at taken'
  cases taken'
  have members : ∀ q, family q → HasSpace s.proc q :=
    fun q inFamily => (watched.guarded q inFamily).member
  cases effect with
  | idle =>
    rintro q (inFamily | ⟨-, -, -, before, after⟩)
    · exact one q inFamily
    · exact absurd after before
  | fault member sane frames change sound others outcome =>
    rw [descendants_eq (by simp)]
    refine one.recoded watched change ?_ fun q inFamily => (frames q).pgdir (members q inFamily).2.1
    exact outcome.elim (fun idle => idle.2.1.keepsOne) fun served => served.keepsOne
  | recode sane other change hides keeps =>
    rw [descendants_eq other]
    exact one.recoded watched change keeps fun _ _ => rfl
  | grow facts =>
    rw [descendants_eq (by simp)]
    intro q inFamily v user isMapped
    have dir := watched.sane.live (members q inFamily)
    rw [(facts.same q).2.1] at isMapped ⊢
    rcases facts.grown.pages _ v dir user isMapped with old | ⟨-, new⟩
    · exact (facts.carries.preserved _ v dir user (one q inFamily v user old)).1
    · exact new
  | fork member facts =>
    rintro q (inFamily | ⟨_, -, -, before, after⟩) v user isMapped
    · have old := members q inFamily
      rw [(facts.old q old).2, facts.entries _ v (watched.sane.live old) user] at isMapped ⊢
      exact one q inFamily v user isMapped
    · obtain ⟨d, made⟩ := (facts.new q after).resolve_left before
      rw [made.child.1] at isMapped ⊢
      exact made.one user isMapped

/-- A program that has just been loaded has the property. -/
theorem exec_oneFlags (sane : Sane image s own) {p : Nat} (member : HasSpace s.proc p)
    {file path : List (BitVec 8)} {argv : List (List (BitVec 8))} (small : file.length < 2 ^ 32)
    (loaded : exec image clockOps s p (some file) path argv = .ok (true, s')) :
    OneFlags s' (· = p) := by
  obtain ⟨program, m₁, loading⟩ := loaded_of_exec loaded
  obtain ⟨-, guard, final, returned, -, -, -, started, present, plain⟩ := exec_started clockOps sane
    member cqInit_remove small loading path
  rw [loaded] at returned
  cases returned
  obtain ⟨own', watched⟩ := exec_watched sane member loaded
  rintro q rfl v user isMapped
  by_cases inside : v < guard + 2
  · by_cases here : v = guard
    · rw [here, exactlyOne, present, plain]
      rfl
    · obtain ⟨encrypted, -, absent⟩ := started.closed v inside here
      rw [exactlyOne, encrypted, absent]
      rfl
  · have pages : pagesBelow (s'.proc q).sz = guard + 2 := by
      rw [started.size, pagesBelow, pgSize]
      omega
    rw [(watched.sane.sizes q (watched.guarded q rfl).member).2 v (by omega) user] at isMapped
    contradiction

theorem run_oneFlags {before after : (Nat → Prop) × Machine (Queue PteAddr)}
    (reached : Relation.ReflTransGen (FamilyStep image) before after)
    (watched : Watched image before.2 own before.1) (one : OneFlags before.2 before.1) :
    OneFlags after.2 after.1 := by
  induction reached with
  | refl => exact one
  | tail earlier last ih =>
    obtain ⟨own', watched', -⟩ := run_watched watched earlier
    obtain ⟨action, allowed, taken, family⟩ := last
    rw [family]
    exact step_oneFlags watched' ih allowed taken

end MemoryEncryption
