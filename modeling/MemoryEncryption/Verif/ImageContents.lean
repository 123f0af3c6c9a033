import MemoryEncryption.Verif.Loading

/-!
# The bytes of a new image

`Building` follows which pages a new address space has. `Filled` adds the flags of its
pages and what they hold: a sequence of bytes that grows by zeros, and over which
`loaduvm` writes a segment and `copyout` a string. A load that succeeds has written
the segments one after another.
-/

namespace MemoryEncryption

variable {σ : Type} {image : Image} {m m₀ final : Mem σ} {own own₀ : Nat → Owner} {d sz : Nat}
  {closed : Nat → Prop} {img : Nat → BitVec 8}

/-- A construction whose pages are present, open to the user unless they are `closed`, and hold the
bytes of `img`. -/
structure Filled (image : Image) (m₀ : Mem σ) (own₀ : Nat → Owner) (d sz : Nat)
    (closed : Nat → Prop) (img : Nat → BitVec 8) (m : Mem σ) (own : Nat → Owner) : Prop
    extends Building image m₀ own₀ d sz m own where
  present : ∀ v < pagesBelow sz, has (entry m d v) pteP = true ∧ has (entry m d v) pteE = false
  user : ∀ v < pagesBelow sz, has (entry m d v) pteU = true ↔ ¬ closed v
  bytes : ∀ a < pagesBelow sz * pgSize, spaceByte m d a = img a
  beyond : ∀ a, pagesBelow sz * pgSize ≤ a → img a = 0

theorem page_below {a n : Nat} : a / pgSize < n ↔ a < n * pgSize := by
  unfold pgSize
  omega

namespace Filled

theorem lt_userPages (filled : Filled image m₀ own₀ d sz closed img m own) {v : Nat}
    (inside : v < pagesBelow sz) : v < userPages :=
  (filled.page inside).1

theorem accessible_iff (filled : Filled image m₀ own₀ d sz closed img m own) {v : Nat}
    (bound : v < 2 ^ 20) : Accessible m d v ↔ v < pagesBelow sz ∧ ¬ closed v := by
  constructor
  · intro accessible
    have inside : v < pagesBelow sz := by
      by_contra above
      have low := filled.owned.accessible_lt filled.live bound accessible
      have isMapped := accessible.1
      rw [filled.vacant v (by omega) low] at isMapped
      simp at isMapped
    exact ⟨inside, (filled.user v inside).mp accessible.2⟩
  · intro ⟨inside, opened⟩
    exact ⟨filled.pages v inside, (filled.user v inside).mpr opened⟩

theorem of_bytes {img' : Nat → BitVec 8} {own' : Nat → Owner}
    (filled : Filled image m₀ own₀ d sz closed img m own)
    (building : Building image m₀ own₀ d sz final own')
    (entries : ∀ v < userPages, entry final d v = entry m d v)
    (bytes : ∀ a < pagesBelow sz * pgSize, spaceByte final d a = img' a)
    (beyond : ∀ a, pagesBelow sz * pgSize ≤ a → img' a = 0) :
    Filled image m₀ own₀ d sz closed img' final own' where
  toBuilding := building
  present v inside := by
    rw [entries v (filled.lt_userPages inside)]
    exact filled.present v inside
  user v inside := by
    rw [entries v (filled.lt_userPages inside)]
    exact filled.user v inside
  bytes := bytes
  beyond := beyond

theorem write (filled : Filled image m₀ own₀ d sz closed img m own) {v o : Nat}
    (inside : v < pagesBelow sz) (bytes : List (BitVec 8)) (fits : o + bytes.length ≤ pgSize) :
    Filled image m₀ own₀ d sz closed (overlay img (v * pgSize + o) bytes)
      (m.setBytes (frameOf (entry m d v)) o bytes) own := by
  obtain ⟨user, mine⟩ := filled.page inside
  obtain ⟨entries, written⟩ := filled.owned.spaceByte_setBytes filled.live user
    (filled.pages v inside) bytes fits
  refine filled.of_bytes (filled.setBytes mine o bytes)
    (fun w bound => entries w (page_lt bound)) (fun a below => ?_) (fun a above => ?_)
  · have page := page_below.mpr below
    rw [written a (filled.lt_userPages page) (filled.pages _ page)]
    exact overlay_congr (filled.bytes a below)
  · have last : (v + 1) * pgSize ≤ pagesBelow sz * pgSize := Nat.mul_le_mul_right _ inside
    rw [Nat.add_mul, Nat.one_mul] at last
    rw [overlay_outside (.inr (by omega)), filled.beyond a above]

theorem round (filled : Filled image m₀ own₀ d sz closed img m own) :
    Filled image m₀ own₀ d (pagesBelow sz * pgSize) closed img m own := by
  have same : pagesBelow (pagesBelow sz * pgSize) = pagesBelow sz := by
    unfold pagesBelow pgSize
    omega
  have top : pagesBelow sz * pgSize ≤ kernBase := by
    have top := filled.top
    unfold pagesBelow pgSize kernBase at *
    omega
  refine ⟨⟨filled.owned, filled.live, filled.apart, filled.kind, filled.queue, top, ?_, ?_,
    filled.kernel⟩, ?_, ?_, ?_, ?_⟩
  · rw [same]
    exact filled.pages
  · rw [same]
    exact filled.vacant
  · rw [same]
    exact filled.present
  · rw [same]
    exact filled.user
  · rw [same]
    exact filled.bytes
  · rw [same]
    exact filled.beyond

theorem grow (filled : Filled image m₀ own₀ d sz closed img m own) (ops : ClockOps σ)
    {newsz size : Nat}
    (grown : allocuvm image ops.steady m d sz newsz = .ok (size, final)) (nonzero : size ≠ 0)
    (opened : ∀ v, pagesBelow sz ≤ v → ¬ closed v) :
    size = max sz newsz ∧ ∃ own', Filled image m₀ own₀ d size closed img final own' := by
  obtain ⟨size', final', own', returns, outcome⟩ := filled.toBuilding.grow newsz
  have same := returns ops.steady fun _ _ _ _ _ _ => rfl
  rw [grown] at same
  cases same
  obtain ⟨-, reached, building⟩ := outcome.resolve_left fun failed => nonzero failed.1
  refine ⟨reached, own', ?_⟩
  rw [allocuvm] at grown
  by_cases high : kernBase ≤ newsz
  · rw [if_pos high] at grown
    exact absurd (Prod.mk.inj (Except.ok.inj grown)).1.symm nonzero
  rw [if_neg high] at grown
  by_cases order : newsz < sz
  · rw [if_pos order] at grown
    cases grown
    exact filled.of_bytes building (fun _ _ => rfl) filled.bytes filled.beyond
  rw [if_neg order] at grown
  obtain rfl : size = newsz := by omega
  have top : size < kernBase := by omega
  obtain ⟨done, final', own'', returns, change, -, -, outcome, -⟩ := allocuvm_uniform filled.owned
    filled.live top (fun v lower upper => filled.vacant v lower (by
      unfold kernBase at top
      unfold pagesBelow at upper
      unfold userPages
      omega)) (show sz ≤ size by omega)
  have same := returns ops.steady fun _ _ _ _ _ _ => rfl
  rw [allocuvm, if_neg high, if_neg order, grown] at same
  obtain ⟨sameSize, rfl⟩ := Prod.mk.inj (Except.ok.inj same)
  have blank : ∀ v, pagesBelow sz ≤ v → v < pagesBelow size → Blank final d v := by
    rcases outcome with ⟨-, blank⟩ | ⟨rfl, -⟩
    · exact blank
    · exact absurd sameSize nonzero
  have flags : ∀ f, has (mappedEntry f (pteW ||| pteU)) pteP = true ∧
      has (mappedEntry f (pteW ||| pteU)) pteE = false ∧
      has (mappedEntry f (pteW ||| pteU)) pteU = true := by
    intro f
    rw [has_pteP, has_pteE, has_pteU, mappedEntry_flag _ _ (by decide),
      mappedEntry_flag _ _ (by decide), mappedEntry_flag _ _ (by decide)]
    decide
  have old : ∀ v < pagesBelow sz, entry final d v = entry m d v :=
    fun v inside => change.entries v (page_lt (filled.lt_userPages inside)) (.inl inside)
  refine ⟨building, fun v inside => ?_, fun v inside => ?_, fun a below => ?_, fun a above => ?_⟩
  · by_cases before : v < pagesBelow sz
    · rw [old v before]
      exact filled.present v before
    · obtain ⟨f, -, shape, -⟩ := blank v (by omega) inside
      rw [shape]
      exact ⟨(flags f).1, (flags f).2.1⟩
  · by_cases before : v < pagesBelow sz
    · rw [old v before]
      exact filled.user v before
    · obtain ⟨f, -, shape, -⟩ := blank v (by omega) inside
      rw [shape]
      exact iff_of_true (flags f).2.2 (opened v (by omega))
  · have page := page_below.mpr below
    by_cases before : a / pgSize < pagesBelow sz
    · obtain ⟨-, mine⟩ := filled.page before
      have kept := (change.contents _ _ (.inl before) mine).2
      rw [← filled.bytes a (page_below.mp before), spaceByte, spaceByte, old _ before,
        byte_congr kept]
    · obtain ⟨f, bound, shape, zero⟩ := blank _ (by omega) page
      rw [filled.beyond a (by rw [page_below] at before; omega), spaceByte, shape,
        frameOf_blank bound, Mem.byte, zero]
      exact BitVec.extractLsb'_zero
  · have more : pagesBelow sz ≤ pagesBelow size := by
      unfold pagesBelow
      omega
    exact filled.beyond a ((Nat.mul_le_mul_right _ more).trans above)

/-! ## Segments -/

/-- The loop of `loaduvm`, at the page `k` of the segment. -/
theorem loadLoop (file : List (BitVec 8)) {offset a n : Nat} (small : file.length < 2 ^ 32)
    (low : offset < 2 ^ 32) (fits : a * pgSize + n ≤ sz) (rounds k : Nat)
    (sum : k + rounds = pagesBelow n)
    (read : k = 0 ∨ offset + k * pgSize ≤ file.length)
    (filled : Filled image m₀ own₀ d sz closed img m own)
    (returned : loaduvmLoop d (a * pgSize) file offset n rounds m (k * pgSize) =
      .ok (true, final)) :
    Filled image m₀ own₀ d sz closed
      (overlay img (a * pgSize + k * pgSize)
        ((file.drop (offset + k * pgSize)).take (n - k * pgSize))) final own := by
  induction rounds generalizing m img k with
  | zero =>
    cases returned
    have none : n - k * pgSize = 0 := by
      unfold pagesBelow pgSize at *
      omega
    rw [none, List.take_zero, overlay_nil]
    exact filled
  | succ rounds ih =>
    have top := filled.top
    have inside : a + k < pagesBelow sz := by
      unfold pagesBelow pgSize at *
      omega
    have user := filled.lt_userPages inside
    have address : (a * pgSize + k * pgSize) % 2 ^ 32 = (a + k) * pgSize := by
      unfold userPages at user
      unfold pgSize
      omega
    have next : k * pgSize + pgSize = (k + 1) * pgSize := by
      unfold pgSize
      omega
    have whole : (offset + k * pgSize) % 2 ^ 32 = offset + k * pgSize := by
      rcases read with rfl | inFile
      · simpa using low
      · exact Nat.mod_eq_of_lt (by omega)
    obtain ⟨pte, found, value⟩ := exists_pteAt (filled.pages _ inside)
    rw [loaduvmLoop, address, walkpgdir_page m d (page_lt user), found] at returned
    simp only [value, next, whole] at returned
    cases reading : readi file (offset + k * pgSize) (min (n - k * pgSize) pgSize) with
    | none => simp [reading] at returned
    | some bytes =>
      simp only [reading] at returned
      split at returned
      · simp at returned
      rename_i all
      have length : bytes.length = min (n - k * pgSize) pgSize := by simpa using all
      have shape : bytes = (file.drop (offset + k * pgSize)).take (min (n - k * pgSize) pgSize) := by
        unfold readi at reading
        split at reading
        · simp at reading
        · exact (Option.some.inj reading).symm
      have written := filled.write (o := 0) inside bytes (by omega)
      rw [Nat.add_zero, Nat.add_mul] at written
      have reaches : offset + k * pgSize + bytes.length ≤ file.length := by
        have most := congrArg List.length shape
        rw [List.length_take, List.length_drop] at most
        unfold pagesBelow pgSize at *
        omega
      by_cases last : rounds = 0
      · -- the remaining bytes are all in this page
        subst last
        cases returned
        have rest : min (n - k * pgSize) pgSize = n - k * pgSize := by
          unfold pagesBelow pgSize at *
          omega
        rw [rest] at shape
        rw [← shape]
        exact written
      · have full : bytes.length = pgSize := by
          rw [length]
          unfold pagesBelow pgSize at *
          omega
        have later := ih (k + 1) (by omega) (.inr (by omega)) written returned
        have start : a * pgSize + (k + 1) * pgSize = a * pgSize + k * pgSize + bytes.length := by
          rw [full, ← next, Nat.add_assoc]
        have count : n - k * pgSize = pgSize + (n - (k + 1) * pgSize) := by
          unfold pagesBelow pgSize at *
          omega
        have rest : file.drop (offset + (k + 1) * pgSize) =
            (file.drop (offset + k * pgSize)).drop pgSize := by
          rw [List.drop_drop, ← next, Nat.add_assoc]
        have first : bytes = (file.drop (offset + k * pgSize)).take pgSize := by
          rw [shape]
          congr 1
          omega
        rw [start, overlay_append, first, rest, ← List.take_add, ← count] at later
        exact later

theorem load (filled : Filled image m₀ own₀ d sz closed img m own) {file : List (BitVec 8)}
    (small : file.length < 2 ^ 32) {addr offset n : Nat} (low : offset < 2 ^ 32)
    (fits : addr + n ≤ sz) (returned : loaduvm m d addr file offset n = .ok (true, final)) :
    Filled image m₀ own₀ d sz closed (overlay img addr ((file.drop offset).take n)) final own := by
  rw [loaduvm] at returned
  split at returned
  · simp at returned
  rename_i aligned
  have start : addr = addr / pgSize * pgSize := by
    unfold pgSize at *
    omega
  have rounds : 0 + pageCount 0 n = pagesBelow n := by
    unfold pageCount pagesBelow
    omega
  rw [start, show (0 : Nat) = 0 * pgSize by simp] at returned
  have written := filled.loadLoop file small low (by rw [← start]; exact fits) _ 0 rounds (.inl rfl)
    returned
  rw [Nat.zero_mul, Nat.add_zero, Nat.add_zero, Nat.sub_zero, ← start] at written
  exact written

end Filled

/-- The bytes of an image after the segments of a file have been written in the order of their
headers. -/
def segmentsImage (file : List (BitVec 8)) : Nat → (off : Nat) → (img : Nat → BitVec 8) →
    Nat → BitVec 8
  | 0, _, img => img
  | rounds + 1, off, img =>
    match readHeader file off progHdrSize with
    | none => img
    | some header =>
      let ph := progHdr header
      segmentsImage file rounds ((off + progHdrSize) % 2 ^ 32)
        (if ph.type ≠ elfProgLoad then img
          else overlay img ph.vaddr ((file.drop ph.off).take ph.filesz))

/-- The bytes of an image that holds the segments of a file and zeros. -/
def fileImage (file : List (BitVec 8)) : Nat → BitVec 8 :=
  match readHeader file 0 elfHdrSize with
  | none => fun _ => 0
  | some header => segmentsImage file (elfHdr header).phnum (elfHdr header).phoff fun _ => 0

/-- The loop over the program headers writes the segments. -/
theorem Filled.segments {file : List (BitVec 8)} (ops : ClockOps σ) (small : file.length < 2 ^ 32)
    (rounds off : Nat) {size : Nat} (opened : ∀ v, ¬ closed v)
    (filled : Filled image m₀ own₀ d sz closed img m own)
    (returned : loadSegments image ops.steady d file rounds m off sz = .ok (some size, final)) :
    ∃ own', Filled image m₀ own₀ d size closed (segmentsImage file rounds off img) final own' := by
  induction rounds generalizing m own sz off img with
  | zero =>
    obtain ⟨same, rfl⟩ := Prod.mk.inj (Except.ok.inj returned)
    cases same
    exact ⟨own, filled⟩
  | succ rounds ih =>
    rw [loadSegments] at returned
    rw [segmentsImage]
    cases read : readHeader file off progHdrSize with
    | none => simp [read] at returned
    | some header =>
      have bounds : (progHdr header).off < 2 ^ 32 ∧ (progHdr header).vaddr < 2 ^ 32 ∧
          (progHdr header).memsz < 2 ^ 32 :=
        ⟨headerField_lt header 4 4, headerField_lt header 8 4, headerField_lt header 20 4⟩
      simp only [read] at returned ⊢
      generalize progHdr header = ph at bounds returned ⊢
      by_cases skip : ph.type ≠ elfProgLoad
      · rw [if_pos skip] at returned ⊢
        exact ih _ filled returned
      rw [if_neg skip] at returned ⊢
      by_cases short : ph.memsz < ph.filesz
      · simp [if_pos short] at returned
      rw [if_neg short] at returned
      by_cases wraps : (ph.vaddr + ph.memsz) % 2 ^ 32 < ph.vaddr
      · rw [if_pos wraps] at returned
        simp at returned
      rw [if_neg wraps] at returned
      obtain ⟨⟨size₁, m₁⟩, grown, returned⟩ := Outcome.bind_eq_ok.mp returned
      simp only at returned
      by_cases zero : size₁ = 0
      · simp [if_pos zero] at returned
      rw [if_neg zero] at returned
      by_cases unaligned : ph.vaddr % pgSize ≠ 0
      · simp [if_pos unaligned] at returned
      rw [if_neg unaligned] at returned
      obtain ⟨⟨done, m₂⟩, loaded, returned⟩ := Outcome.bind_eq_ok.mp returned
      cases done with
      | false => simp at returned
      | true =>
        obtain ⟨reached, own₁, larger⟩ := filled.grow ops grown zero fun v _ => opened v
        have written := larger.load small bounds.1 (by omega) loaded
        exact ih _ written returned

end MemoryEncryption
