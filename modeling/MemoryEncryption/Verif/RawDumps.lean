import MemoryEncryption.Verif.PageReports

/-!
# Copies of frames to user memory

`dump_rawphymem` writes the first byte of its buffer through the user mapping, which
decrypts the first page, and then copies a frame into the frames of the buffer. A page
of the buffer that is still encrypted at that moment gets the bytes of the frame as its
ciphertext, so user code sees their complement. On pages that are not encrypted, what
is read back is what the frame held.
-/

namespace MemoryEncryption

open Outcome

variable {image : Image} {own : Nat → Owner} {spaces buffer : Nat → Prop} {d : Nat}

/-! ## `copyout` -/

section Copyout

variable {σ : Type} {m final : Mem σ} {va : Nat}

theorem CopiedOut.plain {bytes : List (BitVec 8)} (dir : own d = .dir)
    (copied : CopiedOut image own d m va bytes final)
    (plain : ∀ v, pagesOf va bytes.length v → has (entry m d v) pteE = false) :
    stretch (plainByte final d) va bytes.length = bytes := by
  have seen : stretch (plainByte final d) va bytes.length =
      stretch (overlay (spaceByte m d) va bytes) va bytes.length := by
    refine stretch_congr fun k inside => ?_
    have part : pagesOf va bytes.length ((va + k) / pgSize) := ⟨va + k, by omega, by omega, rfl⟩
    obtain ⟨user, accessible⟩ := copied.accessible _ part
    rw [plainByte_open (by rw [copied.entries d _ dir (page_lt user), plain _ part]),
      copied.contents _ user accessible.1]
  rw [seen, stretch_overlay]

theorem CopiedOut.sealed {bytes : List (BitVec 8)} (dir : own d = .dir)
    (copied : CopiedOut image own d m va bytes final) {k : Nat} (inside : k < bytes.length)
    (encrypted : has (entry m d ((va + k) / pgSize)) pteE = true) :
    plainByte final d (va + k) = ~~~bytes[k] := by
  obtain ⟨user, accessible⟩ := copied.accessible _ ⟨va + k, by omega, by omega, rfl⟩
  have kept := copied.entries d _ dir (page_lt user)
  have written := copied.contents (va + k) user accessible.1
  rw [overlay_inside inside] at written
  rw [← written, plainByte, plaintext, kept, encrypted, spaceByte, Mem.byte, kept]
  apply BitVec.eq_of_getLsbD_eq
  intro j small
  have low : 8 * ((va + k) % pgSize % 4) + j < 32 := by omega
  simp [small, low]

end Copyout

/-! ## Loads of the kernel -/

/-- A row of `kmap` that maps physical memory has each of its addresses at a fixed distance. -/
theorem Kmap.frameAt_direct {physStart physEnd a : Nat} (perm : Word) (order : physStart ≤ physEnd)
    (top : physEnd ≤ physTop) :
    Kmap.frameAt (kernBase + a) ⟨kernBase + physStart, physStart, physEnd, perm⟩ =
      if physStart ≤ a ∧ a < physEnd then some (a / pgSize) else none := by
  have range : (kernBase + physStart ≤ kernBase + a ∧ kernBase + a < kernBase + physStart +
      (physEnd + 2 ^ 32 - physStart) % 2 ^ 32) ↔ physStart ≤ a ∧ a < physEnd := by
    unfold physTop at top
    omega
  rw [Kmap.frameAt]
  simp only [range]
  by_cases covers : physStart ≤ a ∧ a < physEnd
  · rw [if_pos covers, if_pos covers, show physStart + (kernBase + a - (kernBase + physStart)) = a by
      omega]
  · rw [if_neg covers, if_neg covers]

/-- The kernel's half maps physical memory up to `PHYSTOP`, and nothing from there to the devices. -/
theorem kernelFrame_eq (image : Image) {a : Nat} (below : kernBase + a < devSpace) :
    kernelFrame image (kernBase + a) = if a < physTop then some (a / pgSize) else none := by
  have above := image.data_above
  have order := image.end_above
  have top := image.end_below
  have start : extMem ≤ image.dataPage * pgSize := by
    unfold extMem pgSize at *
    omega
  have stop : image.dataPage * pgSize ≤ physTop := by
    unfold physTop pgSize at *
    omega
  have devices : Kmap.frameAt (kernBase + a) ⟨devSpace, devSpace, 0, pteW⟩ = none :=
    if_neg fun covers => absurd covers.1 (by simp only; omega)
  rw [kernelFrame, kmap, show (⟨kernBase, 0, extMem, pteW⟩ : Kmap) =
    ⟨kernBase + 0, 0, extMem, pteW⟩ from rfl]
  simp only [List.findSome?_cons, List.findSome?_nil, devices,
    Kmap.frameAt_direct _ (Nat.zero_le extMem) (show extMem ≤ physTop by decide),
    Kmap.frameAt_direct _ start stop, Kmap.frameAt_direct _ stop le_rfl]
  by_cases low : a < extMem
  · rw [if_pos ⟨Nat.zero_le a, low⟩, if_pos (low.trans_le (start.trans stop))]
  rw [if_neg fun covers => low covers.2]
  by_cases text : a < image.dataPage * pgSize
  · rw [if_pos ⟨Nat.le_of_not_lt low, text⟩, if_pos (text.trans_le stop)]
  rw [if_neg fun covers => text covers.2]
  by_cases data : a < physTop
  · rw [if_pos ⟨Nat.le_of_not_lt text, data⟩, if_pos data]
  · rw [if_neg fun covers => data covers.2, if_neg data]

theorem loadBytes_kernel {σ : Type} {image : Image} {ops : ClockOps σ} {f o n : Nat} (m : Mem σ)
    (frame : f < physTop / pgSize) (fits : o + n ≤ pgSize) :
    loadBytes image ops d n (kernBase + f * pgSize + o) m = .ok (stretch (m.byte f) o n, m) := by
  induction n generalizing o with
  | zero => rfl
  | succ n ih =>
    have inPage : o < pgSize := by omega
    have next : (kernBase + f * pgSize + o + 1) % 2 ^ 32 = kernBase + f * pgSize + (o + 1) := by
      unfold kernBase physTop pgSize at *
      omega
    have place : (kernBase + f * pgSize + o) % pgSize = o := by
      unfold kernBase pgSize at *
      omega
    have known : kernelFrame image (kernBase + f * pgSize + o) = some f := by
      have here : f * pgSize + o < physTop := by
        unfold physTop pgSize at *
        omega
      rw [Nat.add_assoc, kernelFrame_eq image (by unfold devSpace kernBase physTop at *; omega),
        if_pos here, (page_of_place inPage).1]
    have first : loadByte image ops d (kernBase + f * pgSize + o) m = .ok (m.byte f o, m) := by
      rw [loadByte, if_pos (by omega), known, place]
    rw [loadBytes, first, ok_bind]
    simp only [next, ih (by omega : o + 1 + n ≤ pgSize), ok_bind, stretch_succ]

/-- A copy from a frame to pages with other frames is a copy of what the frame holds. -/
theorem Owned.copyoutFrom_eq {σ : Type} {ops : ClockOps σ} {m : Mem σ} (owned : Owned image m own)
    (dir : own d = .dir) {va f o len : Nat} (bound : va < 2 ^ 32) (frame : f < physTop / pgSize)
    (fits : o + len ≤ pgSize)
    (apart : ∀ v < userPages, pagesOf va len v → frameOf (entry m d v) ≠ f) :
    copyoutFrom image ops d fuel m va (kernBase + f * pgSize + o) len =
      copyout d fuel m va (stretch (m.byte f) o len) := by
  induction fuel generalizing m va o len with
  | zero =>
    cases len with
    | zero => rfl
    | succ len =>
      rw [stretch_succ]
      rfl
  | succ fuel ih =>
    cases len with
    | zero => rfl
    | succ len =>
      have start : pgRoundDown va = va / pgSize * pgSize := rfl
      have page := page_of_address bound
      by_cases accessible : Accessible m d (va / pgSize)
      · have user := owned.accessible_lt dir page accessible
        have inPage : va % pgSize < pgSize := Nat.mod_lt _ (by decide)
        have source : (kernBase + f * pgSize + o + min (pgSize - va % pgSize) (len + 1)) % 2 ^ 32 =
            kernBase + f * pgSize + (o + min (pgSize - va % pgSize) (len + 1)) := by
          unfold kernBase physTop pgSize at *
          omega
        have other : f ≠ frameOf (entry m d (va / pgSize)) :=
          (apart _ user ⟨va, le_rfl, by omega, rfl⟩).symm
        obtain ⟨stored, entries⟩ := owned.setBytes_recoded dir user accessible.1 (va % pgSize)
          (stretch (m.byte f) o (min (pgSize - va % pgSize) (len + 1)))
        have kept := byte_congr (funext (m.setBytes_word_of_ne _ (va % pgSize)
          (stretch (m.byte f) o (min (pgSize - va % pgSize) (len + 1))) other))
        rw [copyout_round fuel (by simp [stretch_succ]) user accessible, length_stretch,
          stretch_take _ _ (Nat.min_le_right _ _), stretch_drop]
        simp only [copyoutFrom, start, uva2ka_open page accessible, offset_eq, (nextPage_eq user).1,
          loadBytes_kernel m frame (by omega : o + min (pgSize - va % pgSize) (len + 1) ≤ pgSize),
          source, ok_bind]
        rw [ih stored.owned (nextPage_eq user).2 (by omega) fun v low part => ?_, kept]
        obtain ⟨a, lower, upper, page⟩ := part
        rw [entries d v dir (page_lt low)]
        exact apart v low ⟨a, by omega, by omega, page⟩
      · rw [stretch_succ]
        cases found : pteAt m d (va / pgSize) with
        | none => simp only [copyoutFrom, copyout, start, uva2ka_eq m d page, found, error_bind]
        | some pte =>
          simp only [copyoutFrom, copyout, start, uva2ka_closed page found accessible, ok_bind]

/-- The kernel, and user code, can load what a buffer shows. -/
theorem Serving.loadBytes {m : Mem (Queue PteAddr)} {img : Nat → BitVec 8}
    (serving : Serving image own spaces d buffer m img) {n va : Nat}
    (part : ∀ k < n, buffer ((va + k) / pgSize)) :
    ∃ m', loadBytes image clockOps d n va m = .ok (stretch img va n, m') ∧
      Serves image own d buffer m m' ∧ Serving image own spaces d buffer m' img := by
  induction n generalizing m va with
  | zero => exact ⟨m, rfl, .refl serving.owned, serving⟩
  | succ n ih =>
    have here : buffer (va / pgSize) := part 0 n.succ_pos
    have user := (serving.coded _ here).1
    have bound : va < kernBase := by
      unfold userPages pgSize at user
      unfold kernBase
      omega
    obtain ⟨m₁, touched, serves, serving₁, present⟩ := serving.touch here
    have plain : has (entry m₁ d (va / pgSize)) pteE = false := by
      have one := (serving₁.coded _ here).2
      rw [exactlyOne, present] at one
      simpa using one
    have first : loadByte image clockOps d va m = .ok (img va, m₁) := by
      rw [loadByte, if_neg (Nat.not_le.mpr bound), touched, ← serving₁.shows va here,
        plainByte_open plain]
      rfl
    have next : (va + 1) % 2 ^ 32 = va + 1 := by
      unfold kernBase at bound
      omega
    obtain ⟨m₂, loaded, serves₂, serving₂⟩ := ih serving₁ fun k inside => by
      rw [Nat.add_assoc, Nat.add_comm 1 k]
      exact part (k + 1) (by omega)
    refine ⟨m₂, ?_, serves.trans serving.small serves₂, serving₂⟩
    rw [MemoryEncryption.loadBytes, first, ok_bind]
    simp only [next, loaded, ok_bind, stretch_succ]

/-! ## `dump_rawphymem` -/

section Dump

variable {m m₁ final : Mem (Queue PteAddr)} {va sz physicalAddr : Nat}

/-- What a write of the kernel to a user byte leaves, if it returns. -/
structure Touched (image : Image) (own : Nat → Owner) (d va : Nat)
    (m m₁ : Mem (Queue PteAddr)) : Prop where
  recoded : Recoded image own m m₁
  one : ∀ v < userPages, mapped (entry m₁ d v) = true → exactlyOne (entry m₁ d v) = true
  present : has (entry m₁ d (va / pgSize)) pteP = true

theorem patchByte_unmapped (owned : Owned image m own) (dir : own d = .dir) (bound : va < kernBase)
    (unmapped : mapped (entry m d (va / pgSize)) = false) (mask value : BitVec 8) :
    patchByte clockOps d va mask value m = .error (.panic "trap") := by
  have short := lt_word bound
  have absent : has (entry m d (va / pgSize)) pteP = false := by
    rw [mapped_iff, Bool.or_eq_false_iff] at unmapped
    rw [has_pteP, unmapped.1]
  rcases mdecrypt_cases clockOps va owned dir with ⟨refused, -⟩ | ⟨_, _, -, -, isMapped, -⟩
  · rw [patchByte, accesses, touch_absent short absent, refused]
    rfl
  · rw [unmapped] at isMapped
    contradiction

/-- A write of the kernel to a user byte that returns. -/
theorem patchByte_touches (owned : Owned image m own) (live : ∀ e, spaces e → own e = .dir)
    (inside : spaces d) (bound : va < kernBase)
    (one : ∀ v < userPages, mapped (entry m d v) = true → exactlyOne (entry m d v) = true)
    (ready : m.queue.Sound m spaces d ∨ has (entry m d (va / pgSize)) pteP = true)
    {mask value : BitVec 8} (patched : patchByte clockOps d va mask value m = .ok m₁) :
    Touched image own d va m m₁ := by
  have dir := live d inside
  have user := page_of_va bound
  have isMapped : mapped (entry m d (va / pgSize)) = true := by
    by_contra unmapped
    rw [patchByte_unmapped owned dir bound (by simpa using unmapped)] at patched
    contradiction
  rcases ready with sound | present
  · have serving : Serving image own spaces d
        (fun v => v < userPages ∧ mapped (entry m d v) = true) m (plainByte m d) :=
      ⟨owned, live, inside, .inl sound, fun v part => ⟨part.1, one v part.1 part.2⟩,
        fun _ _ => rfl⟩
    obtain ⟨m', patched', serves, serving', present⟩ :=
      serving.patchByte ⟨user, isMapped⟩ mask value
    obtain rfl : m' = m₁ := Except.ok.inj (patched'.symm.trans patched)
    refine ⟨serves.recoded, fun v low there => ?_, present⟩
    rw [serves.recoded.maps d v dir low] at there
    exact (serving'.coded v ⟨low, there⟩).2
  · have serving : Serving image own spaces d (· = va / pgSize) m (plainByte m d) :=
      ⟨owned, live, inside, .inr fun v same => same ▸ present,
        fun v same => same ▸ ⟨user, one _ user isMapped⟩, fun _ _ => rfl⟩
    obtain ⟨m', patched', serves, serving', present'⟩ := serving.patchByte rfl mask value
    obtain rfl : m' = m₁ := Except.ok.inj (patched'.symm.trans patched)
    have still := serves.still fun v same => same ▸ present
    refine ⟨serves.recoded, fun v low there => ?_, present'⟩
    rw [serves.recoded.maps d v dir low] at there
    rw [exactlyOne, (still.flags v (page_lt low)).1, (still.flags v (page_lt low)).2]
    exact one v low there

/-- `sys_dump_rawphymem` is a copy of what the frame holds after the first access to the buffer. -/
theorem sysDumpRawphymem_eq (owned : Owned image m₁ own) (dir : own d = .dir) {start : Nat}
    (bound : start < kernBase) (accepted : argptr sz start pgSize = true)
    (patched : patchByte clockOps d start 0 0 m = .ok m₁) (page : physicalAddr % pgSize = 0)
    (top : physicalAddr ≤ physTop - pgSize)
    (apart : ∀ v < userPages, pagesOf start pgSize v →
      frameOf (entry m₁ d v) ≠ physicalAddr / pgSize) :
    sysDumpRawphymem image clockOps m d sz physicalAddr start =
      copyout d pgSize m₁ start (stretch (m₁.byte (physicalAddr / pgSize)) 0 pgSize) := by
  have short : start < 2 ^ 32 := by
    unfold kernBase at bound
    omega
  have frame : physicalAddr / pgSize < physTop / pgSize := by
    unfold physTop pgSize at *
    omega
  have source : (physicalAddr + kernBase) % 2 ^ 32 =
      kernBase + physicalAddr / pgSize * pgSize + 0 := by
    unfold kernBase physTop pgSize at *
    omega
  rw [sysDumpRawphymem, accepted, if_neg (by decide), dumpRawphymem, patched, ok_bind,
    source]
  exact owned.copyoutFrom_eq dir short frame (by omega) apart

theorem pagesOf_pgSize {start v : Nat} (part : pagesOf start pgSize v) :
    v = start / pgSize ∨ v = start / pgSize + 1 ∧ start % pgSize ≠ 0 := by
  obtain ⟨a, lower, upper, rfl⟩ := part
  unfold pgSize at *
  omega

end Dump

theorem twoKinds_accessible (v : Nat) (bound : v < 2) :
    v < userPages ∧ Accessible twoKinds.mem 401 v ∧ frameOf (entry twoKinds.mem 401 v) = 404 + v := by
  have value := twoKinds.entry_eq (twoKinds.own_dir.mpr (.inr rfl)) v
  rw [if_pos ⟨rfl, bound⟩] at value
  refine ⟨by unfold userPages; omega, ?_, by rw [value, twoKinds.frameOf_page bound]⟩
  rw [Accessible, value]
  have cases : v = 0 ∨ v = 1 := by omega
  rcases cases with rfl | rfl
  · decide
  · decide

/-- `sys_dump_rawphymem` copies frame 0 to any buffer in the two pages of the process, of which the
second stays encrypted. -/
theorem twoKinds_dumps {start : Nat} (low : start < pgSize) :
    ∃ m₁ final, patchByte clockOps 401 start 0 0 twoKinds.mem = .ok m₁ ∧
      sysDumpRawphymem sampleImage clockOps twoKinds.mem 401 8192 0 start = .ok (true, final) ∧
      Still 401 twoKinds.mem m₁ ∧
      CopiedOut sampleImage twoKinds.own 401 m₁ start (stretch (m₁.byte 0) 0 pgSize) final := by
  have live := twoKinds.own_dir.mpr (.inr rfl)
  have first : start / pgSize = 0 := Nat.div_eq_of_lt low
  have present : has (entry twoKinds.mem 401 0) pteP = true := by
    rw [twoKinds.entry_eq live, if_pos ⟨rfl, by decide⟩]
    decide
  have serving : Serving sampleImage twoKinds.own (· = 401) 401 (· = 0) twoKinds.mem
      (plainByte twoKinds.mem 401) :=
    ⟨twoKinds.owned, fun e same => same ▸ live, rfl, .inr fun v same => same ▸ present,
      fun v same => same ▸ ⟨by decide, twoKinds_exactlyOne 0 (by decide)⟩, fun _ _ => rfl⟩
  obtain ⟨m₁, patched, serves, -⟩ := serving.patchByte first 0 0
  have bound : start < kernBase := by
    unfold pgSize at low
    unfold kernBase
    omega
  have accepted : argptr 8192 start pgSize = true := by
    unfold pgSize at low ⊢
    simp only [argptr, Bool.not_eq_true', Bool.or_eq_false_iff, decide_eq_false_iff_not]
    omega
  have pages : ∀ v, pagesOf start pgSize v → v < 2 := by
    rintro v ⟨a, -, upper, rfl⟩
    unfold pgSize at *
    omega
  have accessible : ∀ v, pagesOf start pgSize v → v < userPages ∧ Accessible m₁ 401 v := by
    intro v part
    obtain ⟨user, there, -⟩ := twoKinds_accessible v (pages v part)
    exact ⟨user, serves.recoded.accessible live user there⟩
  have apart : ∀ v < userPages, pagesOf start pgSize v →
      frameOf (entry m₁ 401 v) ≠ 0 / pgSize := by
    intro v user part
    rw [frameOf_of_codeFlags (serves.recoded.entries 401 v live (page_lt user)),
      (twoKinds_accessible v (pages v part)).2.2, Nat.zero_div]
    omega
  have copies := sysDumpRawphymem_eq serves.recoded.owned live bound accepted patched (by decide)
    (by decide) apart
  obtain ⟨final, returned⟩ := serves.recoded.owned.copyout_returns live
    (length_stretch (m₁.byte (0 / pgSize)) 0 pgSize).le (by rw [length_stretch]; exact accessible)
  exact ⟨m₁, final, patched, copies.trans returned, serves.still fun v same => same ▸ present,
    serves.recoded.owned.copyout_writes live (by unfold kernBase at bound; omega) returned⟩

end MemoryEncryption
