import MemoryEncryption.Verif.CopiedSpaces
import MemoryEncryption.Verif.UserAccess
import MemoryEncryption.Verif.UserFaults

/-!
# What `getpgtable` reports

The loop writes one `struct pt_entry` for each page it reports, in descending order, to
consecutive places of the buffer. A place is within the bound that `argptr` has checked
if the product that `sys_getpgtable` makes does not wrap. Each struct decodes to the
bits of its page's entry. The loop never gets to page 0.
-/

namespace MemoryEncryption

variable {image : Image} {own : Nat → Owner} {spaces buffer : Nat → Prop} {d : Nat}
  {m m' : Mem (Queue PteAddr)} {img : Nat → BitVec 8}

/-! ## Places in the buffer -/

variable {σ : Type}

/-- The loop writes to consecutive places, as many as were asked for at most. -/
theorem getpgtableLoop_addresses (ops : ClockOps σ) (pgdir entries : Nat) (num : Int)
    (wsetOnly : Bool) (page index : Nat) (m : Mem σ) :
    ∀ report ∈ (getpgtableLoop ops pgdir entries num wsetOnly page index m).1,
      ∃ i : Nat, (i : Int) < num ∧ report.address = (entries + ptEntrySize * i) % 2 ^ 32 := by
  induction page generalizing index m with
  | zero => simp [getpgtableLoop]
  | succ page ih =>
    intro report listed
    rw [getpgtableLoop] at listed
    split at listed
    case isFalse => simp at listed
    rename_i wanted
    split at listed
    case h_1 => exact ih index m report listed
    split at listed
    case isFalse => exact ih index m report listed
    dsimp only at listed
    split at listed
    · rw [List.mem_singleton] at listed
      exact ⟨index, wanted, by rw [listed]⟩
    · rcases List.mem_cons.mp listed with here | later
      · exact ⟨index, wanted, by rw [here]⟩
      · exact ih (index + 1) _ report later

/-- A page that is chosen is reported, whether its struct can be written or not. -/
theorem getpgtableLoop_first {m : Mem σ} (ops : ClockOps σ) {d page : Nat} (entries : Nat)
    {num : Int} {wsetOnly : Bool} {index : Nat} (small : page + 1 < 2 ^ 20)
    (wanted : (index : Int) < num) (allocated : entry m d (page + 1) ≠ 0)
    (chosen : (!wsetOnly || petInSet (entry m d (page + 1))) = true) :
    ∃ words rest, (getpgtableLoop ops d entries num wsetOnly (page + 1) index m).1 =
      ⟨(entries + ptEntrySize * index) % 2 ^ 32, page + 1, m.queue, words⟩ :: rest := by
  rw [getpgtableLoop, if_pos wanted, walkpgdir_page m d small]
  cases found : pteAt m d (page + 1) with
  | none =>
    rw [entry, found] at allocated
    exact absurd rfl allocated
  | some pte =>
    have value := (get_pteAt found).symm
    rw [value] at allocated chosen
    simp only [if_pos (And.intro allocated chosen)]
    split
    · exact ⟨[], [], rfl⟩
    · exact ⟨_, _, rfl⟩

variable {k : Nat}

theorem PtField.mask_getLsbD (field : PtField) (bound : k < 32) :
    field.mask.getLsbD k = decide (field.shift ≤ k ∧ k < field.shift + field.width) := by
  rw [PtField.mask, BitVec.getLsbD_ofNat, Nat.testBit_shiftLeft, Nat.testBit_two_pow_sub_one]
  simp only [bound, decide_true, Bool.true_and, Bool.decide_and]
  by_cases inside : field.shift ≤ k
  · have same : (k - field.shift < field.width) ↔ (k < field.shift + field.width) := by omega
    simp [inside, same]
  · simp [inside]

theorem PtField.placed_getLsbD (field : PtField) (page : Nat) (word : Word) (bound : k < 32)
    (inside : field.shift ≤ k) :
    (field.placed page word).getLsbD k = (field.value page word).testBit (k - field.shift) := by
  rw [PtField.placed, BitVec.getLsbD_ofNat, Nat.testBit_shiftLeft]
  simp [bound, inside]

theorem bitAt_assign (field : PtField) (page : Nat) (word : Word) (a : Nat) (bound : k < 32) :
    bitAt (replaceBits img a field.mask (field.placed page word) 4) a k =
      if field.shift ≤ k ∧ k < field.shift + field.width then
        (field.value page word).testBit (k - field.shift)
      else bitAt img a k := by
  rw [bitAt_replaceBits bound, field.mask_getLsbD bound]
  by_cases inside : field.shift ≤ k ∧ k < field.shift + field.width
  · rw [if_pos inside, if_pos (decide_eq_true inside), field.placed_getLsbD page word bound inside.1]
  · rw [if_neg inside, if_neg (by simpa using inside)]

/-- The buffer after assignments to the fields of the struct at an address. -/
def assigned (img : Nat → BitVec 8) (address page : Nat) : List (PtField × Word) → Nat → BitVec 8
  | [] => img
  | (field, word) :: rest =>
    assigned (replaceBits img (address + field.offset) field.mask (field.placed page word) 4)
      address page rest

/-- `struct pt_entry`, as user code reads it. -/
structure PtEntry where
  pdx : BitVec 10
  ptx : BitVec 10
  ppage : BitVec 20
  present : Bool
  writable : Bool
  encrypted : Bool
  user : Bool
  ref : Bool

/-- The struct at an address. -/
def ptEntryAt (img : Nat → BitVec 8) (a : Nat) : PtEntry where
  pdx := bitsAt img a 0 10
  ptx := bitsAt img a 10 10
  ppage := bitsAt img (a + 4) 0 20
  present := bitAt img (a + 4) 20
  writable := bitAt img (a + 4) 21
  encrypted := bitAt img (a + 4) 22
  user := bitAt img (a + 4) 23
  ref := bitAt img (a + 4) 24

theorem ptEntryAt_congr {img' : Nat → BitVec 8} {a : Nat}
    (same : ∀ k < ptEntrySize, img (a + k) = img' (a + k)) : ptEntryAt img a = ptEntryAt img' a := by
  have bit : ∀ k < 32, bitAt img (a + 4) k = bitAt img' (a + 4) k := by
    intro k bound
    rw [bitAt, bitAt, Nat.add_assoc, same (4 + k / 8) (by unfold ptEntrySize; omega)]
  have high : ∀ k < 4, img (a + 4 + k) = img' (a + 4 + k) := by
    intro k bound
    rw [Nat.add_assoc, same (4 + k) (by unfold ptEntrySize; omega)]
  have low : ∀ k < 4, img (a + k) = img' (a + k) :=
    fun k bound => same k (by unfold ptEntrySize; omega)
  simp only [ptEntryAt, bitsAt_congr low, bitsAt_congr high, bit 20 (by decide), bit 21 (by decide),
    bit 22 (by decide), bit 23 (by decide), bit 24 (by decide)]

theorem toNat_testBit_zero (flag : Bool) : flag.toNat.testBit 0 = flag := by
  cases flag <;> rfl

theorem ptEntryAt_assigned (a page : Nat) (w₀ w₁ w₂ w₃ w₄ w₅ w₆ w₇ : Word) :
    ptEntryAt (assigned img a page (ptFields.zip [w₀, w₁, w₂, w₃, w₄, w₅, w₆, w₇])) a =
      ⟨BitVec.ofNat 10 (page / 1024), BitVec.ofNat 10 (page % 1024), BitVec.ofNat 20 (frameOf w₂),
        has w₃ pteP, has w₄ pteW, has w₆ pteE, has w₅ pteU, !has w₇ pteE && has w₇ pteA⟩ := by
  simp only [ptFields, List.zip_cons_cons, List.zip_nil_right, assigned, Nat.add_zero]
  -- The first two assignments are in one word, the others in the next.
  have low : ∀ (g : Nat → BitVec 8) (mask value : Word) (k : Nat), k < 32 →
      bitAt (replaceBits g (a + 4) mask value 4) a k = bitAt g a k :=
    fun g mask value k bound => bitAt_replaceBits_of_apart (by omega)
  rw [ptEntryAt, PtEntry.mk.injEq]
  refine ⟨?_, ?_, ?_, ?_, ?_, ?_, ?_, ?_⟩
  · apply BitVec.eq_of_getLsbD_eq
    intro k inside
    have bound : 0 + k < 32 := by omega
    rw [bitsAt_getLsbD inside bound]
    simp only [low _ _ _ _ bound, bitAt_assign _ _ _ _ bound]
    rw [if_neg (by omega), if_pos (by omega), BitVec.getLsbD_ofNat, Nat.zero_add, Nat.sub_zero]
    simp [inside]
  · apply BitVec.eq_of_getLsbD_eq
    intro k inside
    have bound : 10 + k < 32 := by omega
    rw [bitsAt_getLsbD inside bound]
    simp only [low _ _ _ _ bound, bitAt_assign _ _ _ _ bound]
    rw [if_pos (by omega), BitVec.getLsbD_ofNat, Nat.add_sub_cancel_left]
    simp [inside]
  · apply BitVec.eq_of_getLsbD_eq
    intro k inside
    have bound : 0 + k < 32 := by omega
    rw [bitsAt_getLsbD inside bound]
    simp only [bitAt_assign _ _ _ _ bound]
    rw [if_neg (by omega), if_neg (by omega), if_neg (by omega), if_neg (by omega),
      if_neg (by omega), if_pos (by omega), BitVec.getLsbD_ofNat, Nat.zero_add, Nat.sub_zero]
    simp [inside]
  all_goals
    simp (disch := decide) only [bitAt_assign]
    exact toNat_testBit_zero _

theorem assigned_outside {a b page : Nat} (pairs : List (PtField × Word))
    (offsets : ∀ pair ∈ pairs, pair.1.offset + 4 ≤ ptEntrySize)
    (outside : b < a ∨ a + ptEntrySize ≤ b) : assigned img a page pairs b = img b := by
  induction pairs generalizing img with
  | nil => rfl
  | cons pair rest ih =>
    have fits := offsets pair (by simp)
    rw [assigned, ih fun later listed => offsets later (by simp [listed])]
    exact replaceBits_outside (by omega)

/-- What a word read from a page's entry has in common with the entry as it was before. -/
structure ReadFrom (buffer : Nat → Prop) (d : Nat) (m : Mem (Queue PteAddr)) (page : Nat)
    (word : Word) : Prop where
  others : word &&& ~~~codeFlags = entry m d page &&& ~~~codeFlags
  still : (∀ v, buffer v → has (entry m d v) pteP = true) →
    has word pteP = has (entry m d page) pteP ∧ has word pteE = has (entry m d page) pteE

theorem ReadFrom.serves {page : Nat} {word : Word} (later : ReadFrom buffer d m' page word)
    (small : ∀ v, buffer v → v < 2 ^ 20) (dir : own d = .dir) (bound : page < 2 ^ 20)
    (serves : Serves image own d buffer m m') : ReadFrom buffer d m page word := by
  refine ⟨later.others.trans (serves.recoded.entries d page dir bound), fun present => ?_⟩
  have still := serves.still present
  have after := later.still fun v part => by
    rw [(still.flags v (small v part)).1, present v part]
  rw [after.1, after.2]
  exact still.flags page bound

theorem Serving.assignFields (serving : Serving image own spaces d buffer m img)
    (fields : List PtField) {address page : Nat} {pte : PteAddr} (bound : page < 2 ^ 20)
    (found : pteAt m d page = some pte) (top : address + ptEntrySize ≤ kernBase)
    (part : ∀ k < ptEntrySize, buffer ((address + k) / pgSize))
    (offsets : ∀ field ∈ fields, field.offset + 4 ≤ ptEntrySize) :
    ∃ words m', assignFields clockOps d address page pte fields m = .ok (words, m') ∧
      words.length = fields.length ∧ Serves image own d buffer m m' ∧
      (∀ word ∈ words, ReadFrom buffer d m page word) ∧
      Serving image own spaces d buffer m' (assigned img address page (fields.zip words)) := by
  have dir := serving.live d serving.inside
  induction fields generalizing m img with
  | nil => exact ⟨[], m, rfl, rfl, .refl serving.owned, by simp, serving⟩
  | cons field rest ih =>
    have fits := offsets field (by simp)
    have place : (address + field.offset) % 2 ^ 32 = address + field.offset := by
      unfold kernBase at top
      omega
    obtain ⟨m₁, patched, serves, serving₁⟩ := serving.patchWord 4
      (show address + field.offset + 4 ≤ kernBase by omega)
      (fun k inside => by
        rw [Nat.add_assoc]
        exact part (field.offset + k) (by omega))
      field.mask (field.placed page (m.get pte))
    obtain ⟨words, m₂, later, length, serves₂, reads, serving₂⟩ := ih serving₁
      (by rw [serves.recoded.addresses d page dir, found])
      fun field listed => offsets field (by simp [listed])
    refine ⟨m.get pte :: words, m₂, ?_, by simp [length], serves.trans serving.small serves₂, ?_, ?_⟩
    · rw [MemoryEncryption.assignFields]
      simp only [place, patched, later, Outcome.ok_bind]
    · intro word listed
      rcases List.mem_cons.mp listed with rfl | further
      · have value := get_pteAt found
        exact ⟨by rw [value], fun _ => by rw [value]; exact ⟨rfl, rfl⟩⟩
      · exact (reads word further).serves serving.small dir bound serves
    · rw [List.zip_cons_cons, assigned]
      exact serving₂

/-! ## The loop -/

/-- The pages up to a given one whose entry is not zero, from the highest down to page 1. -/
def allocatedAbove {σ : Type} (m : Mem σ) (d : Nat) : (page : Nat) → List Nat
  | 0 => []
  | page + 1 =>
    if entry m d (page + 1) ≠ 0 then (page + 1) :: allocatedAbove m d page
    else allocatedAbove m d page

/-- The struct of a report holds what its page's entry says. -/
structure Described (buffer : Nat → Prop) (d : Nat) (m : Mem (Queue PteAddr)) (img : Nat → BitVec 8)
    (report : Report (Queue PteAddr)) : Prop where
  length : report.words.length = ptFields.length
  reads : ∀ word ∈ report.words, ReadFrom buffer d m report.page word
  written : ∃ img', ∀ k < ptEntrySize, img (report.address + k) =
    assigned img' report.address report.page (ptFields.zip report.words) (report.address + k)

theorem Owned.mapped_iff_ne_zero {m : Mem σ} (owned : Owned image m own) {d v : Nat}
    (live : own d = .dir) (user : v < userPages) :
    mapped (entry m d v) = true ↔ entry m d v ≠ 0 := by
  constructor
  · intro isMapped zero
    rw [zero] at isMapped
    contradiction
  · intro nonzero
    by_contra missing
    exact nonzero (owned.zero d v live user (Bool.eq_false_iff.mpr missing))

theorem allocatedAbove_le {m : Mem σ} {d page v : Nat} (listed : v ∈ allocatedAbove m d page) :
    v ≤ page := by
  induction page with
  | zero => simp [allocatedAbove] at listed
  | succ page ih =>
    rw [allocatedAbove] at listed
    split at listed
    · rcases List.mem_cons.mp listed with rfl | later
      · exact Nat.le_refl _
      · exact Nat.le_succ_of_le (ih later)
    · exact Nat.le_succ_of_le (ih listed)

theorem allocatedAbove_recoded (owned : Owned image m own) (dir : own d = .dir)
    (change : Recoded image own m m') {page : Nat} (user : page < userPages) :
    allocatedAbove m' d page = allocatedAbove m d page := by
  induction page with
  | zero => rfl
  | succ page ih =>
    have same : entry m' d (page + 1) ≠ 0 ↔ entry m d (page + 1) ≠ 0 := by
      rw [← change.owned.mapped_iff_ne_zero dir user, ← owned.mapped_iff_ne_zero dir user,
        change.maps d _ dir user]
    simp only [allocatedAbove, same, ih (by omega)]

/-- What the loop has done when it returns: `n` more entries were asked for. -/
structure Listed (image : Image) (own : Nat → Owner) (spaces : Nat → Prop) (d : Nat)
    (buffer : Nat → Prop) (m : Mem (Queue PteAddr)) (img : Nat → BitVec 8) (place n page : Nat)
    (reports : List (Report (Queue PteAddr))) (final : Mem (Queue PteAddr)) : Prop where
  pages : reports.map Report.page = (allocatedAbove m d page).take n
  serves : Serves image own d buffer m final
  /-- The buffer: what lies before the place is kept, and each struct is written. -/
  buffer : ∃ img', Serving image own spaces d buffer final img' ∧ (∀ a < place, img' a = img a) ∧
    ∀ i (inside : i < reports.length), reports[i].address = place + ptEntrySize * i ∧
      Described buffer d m img' reports[i]

variable {n : Nat}

theorem Listed.nil (serving : Serving image own spaces d buffer m img) (place : Nat) {page : Nat}
    (none : (allocatedAbove m d page).take n = []) :
    Listed image own spaces d buffer m img place n page [] m :=
  ⟨none.symm, .refl serving.owned, img, serving, fun _ _ => rfl, fun i inside => by simp at inside⟩

variable {reports : List (Report (Queue PteAddr))} {final : Mem (Queue PteAddr)}

theorem Listed.skip {place page : Nat}
    (listed : Listed image own spaces d buffer m img place n page reports final)
    (missing : entry m d (page + 1) = 0) :
    Listed image own spaces d buffer m img place n (page + 1) reports final := by
  refine ⟨?_, listed.serves, listed.buffer⟩
  rw [listed.pages, allocatedAbove, if_neg (by simpa using missing)]

theorem Listed.cons (serving : Serving image own spaces d buffer m img) {place page : Nat}
    (user : page + 1 < userPages) (allocated : entry m d (page + 1) ≠ 0) {words : List Word}
    (length : words.length = ptFields.length) (serves : Serves image own d buffer m m')
    (reads : ∀ word ∈ words, ReadFrom buffer d m (page + 1) word)
    (later : Listed image own spaces d buffer m'
      (assigned img place (page + 1) (ptFields.zip words)) (place + ptEntrySize) n page reports final)
    (queue : Queue PteAddr) :
    Listed image own spaces d buffer m img place (n + 1) (page + 1)
      (⟨place, page + 1, queue, words⟩ :: reports) final := by
  have dir := serving.live d serving.inside
  obtain ⟨pages, serves', img', serving', before, structs⟩ := later
  refine ⟨?_, serves.trans serving.small serves', img', serving', fun a below => ?_, ?_⟩
  · rw [List.map_cons, pages, allocatedAbove_recoded serving.owned dir serves.recoded (by omega),
      allocatedAbove, if_pos allocated, List.take_succ_cons]
  · have offsets : ∀ pair ∈ ptFields.zip words, pair.1.offset + 4 ≤ ptEntrySize := by
      intro pair listed
      have all : ∀ field ∈ ptFields, field.offset + 4 ≤ ptEntrySize := by decide
      exact all _ (List.of_mem_zip listed).1
    rw [before a (by omega), assigned_outside _ offsets (.inl below)]
  · intro i inside
    cases i with
    | zero =>
      exact ⟨rfl, length, reads, img, fun k within => before _ (Nat.add_lt_add_left within place)⟩
    | succ i =>
      have within : i < reports.length := by simpa using inside
      obtain ⟨address, described⟩ := structs i within
      have later : reports[i].page ∈ allocatedAbove m' d page := by
        have listed : reports[i].page ∈ reports.map Report.page :=
          List.mem_map_of_mem (List.getElem_mem _)
        rw [pages] at listed
        exact List.mem_of_mem_take listed
      refine ⟨?_, described.length, fun word read => ?_, described.written⟩
      · rw [List.getElem_cons_succ, address, ptEntrySize]
        omega
      · exact (described.reads word read).serves serving.small dir
          (page_lt (Nat.lt_of_le_of_lt (allocatedAbove_le later) (by omega))) serves

/-- An entry that is zero, or has no page table, is passed over; with `wsetOnly`, so is one that is
not in the set. -/
theorem getpgtableLoop_skip {m : Mem σ} (ops : ClockOps σ) {d page : Nat} (entries : Nat)
    (num : Int) (wsetOnly : Bool) (index : Nat) (small : page + 1 < 2 ^ 20)
    (missing : entry m d (page + 1) = 0 ∨
      wsetOnly = true ∧ petInSet (entry m d (page + 1)) = false) :
    getpgtableLoop ops d entries num wsetOnly (page + 1) index m =
      getpgtableLoop ops d entries num wsetOnly page index m := by
  rw [getpgtableLoop, walkpgdir_page m d small]
  by_cases wanted : (index : Int) < num
  · rw [if_pos wanted]
    cases found : pteAt m d (page + 1) with
    | none => rfl
    | some pte =>
      rw [entry, found] at missing
      have refused : ¬ (m.get pte ≠ 0 ∧ (!wsetOnly || petInSet (m.get pte)) = true) := by
        rintro ⟨nonzero, chosen⟩
        rcases missing with zero | ⟨rfl, outside⟩
        · exact nonzero zero
        · rw [show petInSet (m.get pte) = false from outside] at chosen
          contradiction
      simp only [if_neg refused]
  · rw [if_neg wanted]
    cases page with
    | zero => rfl
    | succ page => rw [getpgtableLoop, if_neg wanted]

theorem Serving.getpgtableLoop (serving : Serving image own spaces d buffer m img)
    {entries page index : Nat} {num : Int} (user : page < userPages)
    (part : ∀ a, entries + ptEntrySize * index ≤ a → a < entries + ptEntrySize *
      (index + min (num - index).toNat (allocatedAbove m d page).length) → buffer (a / pgSize)) :
    ∃ reports final, getpgtableLoop clockOps d entries num false page index m =
        (reports, .ok ((index : Int) + reports.length, final)) ∧
      Listed image own spaces d buffer m img (entries + ptEntrySize * index) (num - index).toNat
        page reports final := by
  have dir := serving.live d serving.inside
  induction page generalizing index m img with
  | zero =>
    refine ⟨[], m, ?_, .nil serving _ (List.take_nil)⟩
    simp [MemoryEncryption.getpgtableLoop]
  | succ page ih =>
    by_cases missing : entry m d (page + 1) = 0
    · rw [allocatedAbove, if_neg (by simpa using missing)] at part
      obtain ⟨reports, final, run, listed⟩ := ih serving (by omega) part
      refine ⟨reports, final, ?_, listed.skip missing⟩
      rw [getpgtableLoop_skip _ _ _ _ _ (page_lt user) (.inl missing), run]
    rw [MemoryEncryption.getpgtableLoop]
    by_cases wanted : (index : Int) < num
    case neg =>
      rw [if_neg wanted]
      refine ⟨[], m, by simp, .nil serving _ ?_⟩
      rw [show (num - index).toNat = 0 by omega, List.take_zero]
    rw [if_pos wanted]
    rw [walkpgdir_page m d (page_lt user)]
    obtain ⟨pte, found, value⟩ :=
      exists_pteAt ((serving.owned.mapped_iff_ne_zero dir user).mpr missing)
    rw [allocatedAbove, if_pos missing, List.length_cons] at part
    have struct : ∀ k < ptEntrySize, buffer ((entries + ptEntrySize * index + k) / pgSize) :=
      fun k inside => part _ (by omega) (by unfold ptEntrySize at *; omega)
    have last := (serving.coded _ (struct 7 (by decide))).1
    have top : entries + ptEntrySize * index + ptEntrySize ≤ kernBase := by
      unfold userPages pgSize ptEntrySize at last
      unfold kernBase ptEntrySize
      omega
    have place : (entries + ptEntrySize * index) % 2 ^ 32 = entries + ptEntrySize * index := by
      unfold kernBase at top
      omega
    obtain ⟨words, m₁, assigns, length, serves, reads, serving₁⟩ := serving.assignFields ptFields
      (page_lt user) found top struct (by decide)
    have rest : ∀ a, entries + ptEntrySize * (index + 1) ≤ a → a < entries + ptEntrySize *
        (index + 1 + min (num - (index + 1 : Nat)).toNat (allocatedAbove m₁ d page).length) →
        buffer (a / pgSize) := by
      intro a lower upper
      rw [allocatedAbove_recoded serving.owned dir serves.recoded (by omega)] at upper
      refine part a ?_ ?_
      · unfold ptEntrySize at *
        omega
      · unfold ptEntrySize at *
        omega
    obtain ⟨reports, final, run, listed⟩ := ih serving₁ (by omega) rest
    refine ⟨⟨entries + ptEntrySize * index, page + 1, m.queue, words⟩ :: reports, final, ?_, ?_⟩
    · have nonzero : m.get pte ≠ 0 := by rwa [value]
      simp only [found, nonzero, ne_eq, not_false_eq_true, Bool.not_false, Bool.true_or, and_self,
        ↓reduceIte, place, assigns, run, List.length_cons]
      congr 3
      push_cast
      omega
    · rw [show (num - index).toNat = (num - (index + 1 : Nat)).toNat + 1 by omega]
      rw [Nat.mul_add_one, ← Nat.add_assoc] at listed
      exact .cons serving user missing length serves reads listed m.queue

/-! ## The whole call -/

/-- The user pages at or below `PGROUNDDOWN(sz)` whose entry is not zero, the highest first. -/
def allocatedPages {σ : Type} (m : Mem σ) (d sz : Nat) : List Nat :=
  (List.range (sz / pgSize + 1)).reverse.filter fun v => entry m d v ≠ 0

theorem allocatedPages_eq (m : Mem σ) (d sz : Nat) :
    allocatedPages m d sz =
      allocatedAbove m d (sz / pgSize) ++ if entry m d 0 ≠ 0 then [0] else [] := by
  rw [allocatedPages]
  induction sz / pgSize with
  | zero =>
    change List.filter _ [0] = _
    rw [List.filter_cons, List.filter_nil, allocatedAbove, List.nil_append]
    simp only [decide_eq_true_eq]
  | succ page ih =>
    rw [List.range_succ, List.reverse_append, List.reverse_singleton, List.singleton_append,
      List.filter_cons, ih, allocatedAbove]
    by_cases allocated : entry m d (page + 1) ≠ 0
    · rw [if_pos (decide_eq_true allocated), if_pos allocated, List.cons_append]
    · rw [if_neg (by simpa using allocated), if_neg allocated]

theorem allocatedPages_descending (m : Mem σ) (d sz : Nat) :
    (allocatedPages m d sz).Pairwise (· > ·) :=
  List.Pairwise.filter _ (List.pairwise_reverse.mpr List.pairwise_lt_range)

theorem writable_of_codeFlags {left right : Word}
    (same : left &&& ~~~codeFlags = right &&& ~~~codeFlags) : has left pteW = has right pteW := by
  rw [has_pteW, has_pteW, bit_of_codeFlags same (by decide)]

/-- The pages of the structs that a call of `getpgtable` writes. -/
def reportPages {σ : Type} (m : Mem σ) (d sz entries : Nat) (num : Int) : Nat → Prop :=
  pagesOf entries (ptEntrySize * min num.toNat (allocatedPages m d sz).length)

/-- What user code reads in the struct of a report. The words of the report are what the page's
entry held when the fields were assigned. -/
structure Faithful (buffer : Nat → Prop) (m final : Mem (Queue PteAddr)) (d : Nat)
    (report : Report (Queue PteAddr)) : Prop where
  /-- The page directory index. -/
  pdx : (ptEntryAt (plainByte final d) report.address).pdx = BitVec.ofNat 10 (report.page / 1024)
  /-- The page table index. -/
  ptx : (ptEntryAt (plainByte final d) report.address).ptx = BitVec.ofNat 10 (report.page % 1024)
  /-- The physical page number. -/
  ppage : (ptEntryAt (plainByte final d) report.address).ppage =
    BitVec.ofNat 20 (frameOf (entry m d report.page))
  /-- `PTE_W`. -/
  writable : (ptEntryAt (plainByte final d) report.address).writable =
    has (entry m d report.page) pteW
  /-- `PTE_U`. -/
  user : (ptEntryAt (plainByte final d) report.address).user = has (entry m d report.page) pteU
  /-- `PTE_P`, when it was read. -/
  present : ∃ word, report.words[3]? = some word ∧
    (ptEntryAt (plainByte final d) report.address).present = has word pteP
  /-- `PTE_E`, when it was read. -/
  encrypted : ∃ word, report.words[6]? = some word ∧
    (ptEntryAt (plainByte final d) report.address).encrypted = has word pteE
  /-- Without page faults on the buffer, the two are what they were before the call. -/
  still : (∀ v, buffer v → has (entry m d v) pteP = true) →
    (ptEntryAt (plainByte final d) report.address).present = has (entry m d report.page) pteP ∧
    (ptEntryAt (plainByte final d) report.address).encrypted = has (entry m d report.page) pteE

theorem Described.faithful {report : Report (Queue PteAddr)}
    (described : Described buffer d m img report)
    (shows : ∀ k < ptEntrySize, plainByte final d (report.address + k) = img (report.address + k)) :
    Faithful buffer m final d report := by
  obtain ⟨length, reads, img', written⟩ := described
  have bytes : ∀ k < ptEntrySize, plainByte final d (report.address + k) =
      assigned img' report.address report.page (ptFields.zip report.words) (report.address + k) :=
    fun k inside => (shows k inside).trans (written k inside)
  have decoded := ptEntryAt_congr bytes
  obtain ⟨address, page, queue, words⟩ := report
  match words, length with
  | [w₀, w₁, w₂, w₃, w₄, w₅, w₆, w₇], _ =>
    rw [ptEntryAt_assigned] at decoded
    have frame := frameOf_of_codeFlags (reads w₂ (by simp)).others
    have writable := writable_of_codeFlags (reads w₄ (by simp)).others
    have user : has w₅ pteU = has (entry m d page) pteU := by
      rw [has_pteU, has_pteU, user_of_codeFlags (reads w₅ (by simp)).others]
    constructor
    case present => exact ⟨w₃, rfl, by rw [decoded]⟩
    case encrypted => exact ⟨w₆, rfl, by rw [decoded]⟩
    case still =>
      intro all
      rw [decoded]
      exact ⟨((reads w₃ (by simp)).still all).1, ((reads w₆ (by simp)).still all).2⟩
    case ppage => rw [decoded, ← frame]
    case writable => rw [decoded, ← writable]
    case user => rw [decoded, ← user]
    all_goals rw [decoded]

end MemoryEncryption
