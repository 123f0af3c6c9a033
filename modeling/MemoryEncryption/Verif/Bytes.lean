import MemoryEncryption.Library.Overlay
import MemoryEncryption.Verif.Recoding

/-!
# Memory byte by byte

Frames are made of words; strings, segments of programs and the buffers of system
calls are bytes at addresses of an address space. `spaceByte` is what a frame holds
there, and `plainByte` what user code sees once the page is decrypted. Storing bytes
in a page writes a stretch over that sequence.
-/

namespace MemoryEncryption

variable {σ : Type} {image : Image} {m m' : Mem σ} {own : Nat → Owner}

/-! ## Bytes of a frame -/

theorem Mem.byte_getLsbD (m : Mem σ) (f o : Nat) {k : Nat} (low : k < 8) :
    (m.byte f o).getLsbD k = (m.word f (o / 4)).getLsbD (8 * (o % 4) + k) := by
  simp [Mem.byte, low]

/-- A bit of a word in which one byte has been replaced. -/
theorem replaceByte_getLsbD (old : Word) (value : BitVec 8) {place k : Nat} (inside : place < 4)
    (bound : k < 32) :
    ((old &&& ~~~(0xFF#32 <<< (8 * place))) ||| (value.setWidth 32 <<< (8 * place))).getLsbD k =
      if 8 * place ≤ k ∧ k < 8 * place + 8 then value.getLsbD (k - 8 * place)
      else old.getLsbD k := by
  have mask : (0xFF#32).getLsbD (k - 8 * place) = decide (k - 8 * place < 8) := by
    have all : ∀ j < 32, (0xFF#32).getLsbD j = decide (j < 8) := by decide
    exact all _ (by omega)
  simp only [BitVec.getLsbD_or, BitVec.getLsbD_and, BitVec.getLsbD_not, BitVec.getLsbD_shiftLeft,
    BitVec.getLsbD_setWidth, bound, mask, decide_true, Bool.true_and]
  by_cases before : k < 8 * place
  · rw [if_neg (by omega)]
    simp [before]
  · by_cases within : k < 8 * place + 8
    · rw [if_pos ⟨by omega, within⟩]
      simp [before, show k - 8 * place < 8 by omega, show k - 8 * place < 32 by omega]
    · rw [if_neg (by omega), BitVec.getLsbD_of_ge value _ (by omega)]
      simp [before, show ¬ k - 8 * place < 8 by omega]

theorem Mem.byte_setByte (m : Mem σ) (f o : Nat) (value : BitVec 8) (g a : Nat) :
    (m.setByte f o value).byte g a = if g = f ∧ a = o then value else m.byte g a := by
  apply BitVec.eq_of_getLsbD_eq
  intro k low
  rw [Mem.byte_getLsbD _ _ _ low, Mem.setByte]
  simp only [Mem.set_word]
  by_cases here : g = f ∧ a / 4 = o / 4
  · obtain ⟨rfl, sameWord⟩ := here
    rw [if_pos ⟨rfl, sameWord⟩, replaceByte_getLsbD _ _ (Nat.mod_lt _ (by decide)) (by omega)]
    by_cases same : a = o
    · subst same
      rw [if_pos ⟨by omega, by omega⟩, if_pos ⟨rfl, rfl⟩]
      congr 1
      omega
    · rw [if_neg (by omega), if_neg fun both => same both.2, Mem.byte_getLsbD _ _ _ low, sameWord]
  · rw [if_neg here, if_neg (by rintro ⟨rfl, rfl⟩; exact here ⟨rfl, rfl⟩),
      Mem.byte_getLsbD _ _ _ low]

theorem Mem.byte_setBytes (m : Mem σ) (f o : Nat) (bytes : List (BitVec 8)) :
    (m.setBytes f o bytes).byte f = overlay (m.byte f) o bytes := by
  induction bytes generalizing m o with
  | nil => rw [Mem.setBytes, overlay_nil]
  | cons value rest ih =>
    have first : (m.setByte f o value).byte f = overlay (m.byte f) o [value] := by
      funext a
      rw [Mem.byte_setByte]
      by_cases here : a = o
      · subst here
        simp [overlay]
      · rw [if_neg fun both => here both.2, overlay_outside (by simp; omega)]
    rw [Mem.setBytes, ih, first]
    exact overlay_append

theorem byte_congr {f g : Nat} (same : m'.word f = m.word g) : m'.byte f = m.byte g := by
  funext a
  rw [Mem.byte, Mem.byte, same]

/-! ## Bytes of an address space -/

/-- The byte that the frame of a page holds at an address. -/
def spaceByte (m : Mem σ) (d a : Nat) : BitVec 8 :=
  m.byte (frameOf (entry m d (a / pgSize))) (a % pgSize)

/-- The byte of the plaintext at an address. -/
def plainByte (m : Mem σ) (d a : Nat) : BitVec 8 :=
  (plaintext m d (a / pgSize) (a % pgSize / 4)).extractLsb' (8 * (a % pgSize % 4)) 8

theorem plainByte_open {d a : Nat} (plain : has (entry m d (a / pgSize)) pteE = false) :
    plainByte m d a = spaceByte m d a := by
  rw [plainByte, plaintext, plain]
  rfl

theorem plainByte_congr {d a : Nat}
    (same : plaintext m' d (a / pgSize) = plaintext m d (a / pgSize)) :
    plainByte m' d a = plainByte m d a := by
  rw [plainByte, plainByte, same]

theorem page_of_place {v o : Nat} (inside : o < pgSize) :
    (v * pgSize + o) / pgSize = v ∧ (v * pgSize + o) % pgSize = o := by
  unfold pgSize at *
  omega

theorem Owned.setBytes_recoded (owned : Owned image m own) {d v : Nat}
    (live : own d = .dir) (user : v < userPages) (isMapped : mapped (entry m d v) = true) (o : Nat)
    (bytes : List (BitVec 8)) :
    Recoded image own m (m.setBytes (frameOf (entry m d v)) o bytes) ∧
      ∀ e w, own e = .dir → w < 2 ^ 20 →
        entry (m.setBytes (frameOf (entry m d v)) o bytes) e w = entry m e w :=
  owned.contents (owned.user d v live user isMapped)
    (fun _ other => funext (m.setBytes_word_of_ne _ o bytes other)) (m.setBytes_rest _ _ _).1

/-- Storing bytes in the frame of one page of an address space. -/
theorem Owned.spaceByte_setBytes (owned : Owned image m own) {d v o : Nat} (live : own d = .dir)
    (user : v < userPages) (isMapped : mapped (entry m d v) = true) (bytes : List (BitVec 8))
    (fits : o + bytes.length ≤ pgSize) :
    (∀ w < 2 ^ 20, entry (m.setBytes (frameOf (entry m d v)) o bytes) d w = entry m d w) ∧
      ∀ a, a / pgSize < userPages → mapped (entry m d (a / pgSize)) = true →
        spaceByte (m.setBytes (frameOf (entry m d v)) o bytes) d a =
          overlay (spaceByte m d) (v * pgSize + o) bytes a := by
  have label := owned.user d v live user isMapped
  have entries := fun w => (owned.setBytes_recoded live user isMapped o bytes).2 d w live
  refine ⟨entries, fun a inside there => ?_⟩
  rw [spaceByte, entries _ (page_lt inside)]
  by_cases here : a / pgSize = v
  · rw [here, Mem.byte_setBytes]
    unfold overlay
    have place : v * pgSize + o ≤ a ↔ o ≤ a % pgSize := by
      rw [← here]
      unfold pgSize
      omega
    have offset : a - (v * pgSize + o) = a % pgSize - o := by
      rw [← here]
      unfold pgSize
      omega
    simp only [place, offset, spaceByte, here]
  · have other : frameOf (entry m d (a / pgSize)) ≠ frameOf (entry m d v) := by
      intro same
      have label' := owned.user d _ live inside there
      rw [same, label] at label'
      injection label' with _ pages
      exact here pages.symm
    have kept : (m.setBytes (frameOf (entry m d v)) o bytes).word
        (frameOf (entry m d (a / pgSize))) = m.word (frameOf (entry m d (a / pgSize))) := by
      exact funext (m.setBytes_word_of_ne _ o bytes other)
    have apart : a < v * pgSize + o ∨ v * pgSize + o + bytes.length ≤ a := by
      unfold pgSize at *
      omega
    rw [overlay_outside apart, spaceByte, byte_congr kept]

/-! ## Rounds of `copyout` -/

variable {final : Mem σ} {d va v fuel : Nat} {bytes : List (BitVec 8)}

theorem offset_eq : va - va / pgSize * pgSize = va % pgSize := by
  unfold pgSize
  omega

/-- The page after a page of the user. -/
theorem nextPage_eq (user : va / pgSize < userPages) :
    (va / pgSize * pgSize + pgSize) % 2 ^ 32 = va + (pgSize - va % pgSize) ∧
      va + (pgSize - va % pgSize) < 2 ^ 32 := by
  unfold userPages pgSize at *
  omega

theorem uva2ka_open (bound : v < 2 ^ 20) (accessible : Accessible m d v) :
    uva2ka m d (v * pgSize) = .ok (some (frameOf (entry m d v))) := by
  obtain ⟨pte, found, -⟩ := exists_pteAt accessible.1
  simp only [uva2ka_eq m d bound, found, accessible.1, accessible.2, Bool.and_self, ↓reduceIte]

theorem uva2ka_closed {pte : PteAddr} (bound : v < 2 ^ 20) (found : pteAt m d v = some pte)
    (closed : ¬ Accessible m d v) : uva2ka m d (v * pgSize) = .ok none := by
  simp only [uva2ka_eq m d bound, found]
  rw [if_neg fun both => closed (Bool.and_eq_true_iff.mp both)]

/-- What `copyout` does at a page that user code may reach. -/
theorem copyout_round (fuel : Nat) (nonempty : bytes ≠ []) (user : va / pgSize < userPages)
    (accessible : Accessible m d (va / pgSize)) :
    copyout d (fuel + 1) m va bytes =
      copyout d fuel (m.setBytes (frameOf (entry m d (va / pgSize))) (va % pgSize)
          (bytes.take (min (pgSize - va % pgSize) bytes.length)))
        (va + (pgSize - va % pgSize)) (bytes.drop (min (pgSize - va % pgSize) bytes.length)) := by
  have start : pgRoundDown va = va / pgSize * pgSize := rfl
  cases shape : bytes with
  | nil => exact absurd shape nonempty
  | cons first rest =>
    simp only [copyout, start, uva2ka_open (page_lt user) accessible, offset_eq,
      (nextPage_eq user).1, Outcome.ok_bind]

/-- At a page that has an entry and that user code may not reach, `copyout` fails. -/
theorem copyout_refused {pte : PteAddr} (fuel : Nat) (nonempty : bytes ≠ []) (bound : va < 2 ^ 32)
    (found : pteAt m d (va / pgSize) = some pte) (closed : ¬ Accessible m d (va / pgSize)) :
    copyout d (fuel + 1) m va bytes = .ok (false, m) := by
  have start : pgRoundDown va = va / pgSize * pgSize := rfl
  cases shape : bytes with
  | nil => exact absurd shape nonempty
  | cons first rest =>
    simp only [copyout, start, uva2ka_closed (page_of_address bound) found closed, Outcome.ok_bind]

/-- A `copyout` that returns has copied everything or found a page closed, or has gone on after a
page that it has written. -/
theorem Owned.copyout_cases (owned : Owned image m own) (dir : own d = .dir) (bound : va < 2 ^ 32)
    {done : Bool} (returned : copyout d (fuel + 1) m va bytes = .ok (done, final)) :
    (final = m ∧ (done = true → bytes = [])) ∨
      va / pgSize < userPages ∧ Accessible m d (va / pgSize) ∧
        copyout d fuel (m.setBytes (frameOf (entry m d (va / pgSize))) (va % pgSize)
            (bytes.take (min (pgSize - va % pgSize) bytes.length)))
          (va + (pgSize - va % pgSize)) (bytes.drop (min (pgSize - va % pgSize) bytes.length)) =
          .ok (done, final) := by
  by_cases empty : bytes = []
  · subst empty
    cases returned
    exact .inl ⟨rfl, fun _ => rfl⟩
  by_cases accessible : Accessible m d (va / pgSize)
  · have user := owned.accessible_lt dir (page_of_address bound) accessible
    rw [copyout_round fuel empty user accessible] at returned
    exact .inr ⟨user, accessible, returned⟩
  · cases found : pteAt m d (va / pgSize) with
    | some pte =>
      rw [copyout_refused fuel empty bound found accessible] at returned
      cases returned
      exact .inl ⟨rfl, nofun⟩
    | none =>
      have start : pgRoundDown va = va / pgSize * pgSize := rfl
      cases bytes with
      | nil => exact absurd rfl empty
      | cons first rest =>
        simp only [copyout, start, uva2ka_eq m d (page_of_address bound), found] at returned
        cases returned

theorem copyout_zero {done : Bool} (returned : copyout d 0 m va bytes = .ok (done, final)) :
    final = m ∧ bytes = [] := by
  cases bytes with
  | nil =>
    cases returned
    exact ⟨rfl, rfl⟩
  | cons first rest => cases returned

/-- The pages of a run of bytes. -/
def pagesOf (start n v : Nat) : Prop := ∃ a, start ≤ a ∧ a < start + n ∧ a / pgSize = v

/-- A copy of bytes to an address has been made, in the frames of its pages. -/
structure CopiedOut {σ : Type} (image : Image) (own : Nat → Owner) (d : Nat) (m : Mem σ) (va : Nat)
    (bytes : List (BitVec 8)) (final : Mem σ) : Prop where
  recoded : Recoded image own m final
  entries : ∀ e w, own e = .dir → w < 2 ^ 20 → entry final e w = entry m e w
  queue : final.queue = m.queue
  accessible : ∀ v, pagesOf va bytes.length v → v < userPages ∧ Accessible m d v
  contents : ∀ a, a / pgSize < userPages → mapped (entry m d (a / pgSize)) = true →
    spaceByte final d a = overlay (spaceByte m d) va bytes a

theorem CopiedOut.nil (owned : Owned image m own) (va : Nat) :
    CopiedOut image own d m va [] m where
  recoded := .refl owned
  entries _ _ _ _ := rfl
  queue := rfl
  accessible v part := by
    obtain ⟨a, lower, upper, -⟩ := part
    rw [List.length_nil] at upper
    omega
  contents a _ _ := by rw [overlay_nil]

/-- A page is written, and the rest follows on the next one. -/
theorem CopiedOut.cons (owned : Owned image m own) (dir : own d = .dir)
    (user : va / pgSize < userPages) (accessible : Accessible m d (va / pgSize))
    (rest : CopiedOut image own d (m.setBytes (frameOf (entry m d (va / pgSize))) (va % pgSize)
        (bytes.take (min (pgSize - va % pgSize) bytes.length)))
      (va + (pgSize - va % pgSize)) (bytes.drop (min (pgSize - va % pgSize) bytes.length)) final) :
    CopiedOut image own d m va bytes final := by
  obtain ⟨stored, entries⟩ := owned.setBytes_recoded dir user accessible.1 (va % pgSize)
    (bytes.take (min (pgSize - va % pgSize) bytes.length))
  have inPage : va % pgSize < pgSize := Nat.mod_lt _ (by decide)
  have fits : va % pgSize + (bytes.take (min (pgSize - va % pgSize) bytes.length)).length ≤
      pgSize := by
    rw [List.length_take]
    omega
  have written := (owned.spaceByte_setBytes dir user accessible.1
    (bytes.take (min (pgSize - va % pgSize) bytes.length)) fits).2
  rw [Nat.div_add_mod' va pgSize] at written
  refine ⟨stored.trans rest.recoded, fun e w live bound => ?_, ?_, fun v part => ?_,
    fun a inside isMapped => ?_⟩
  · rw [rest.entries e w live bound, entries e w live bound]
  · rw [rest.queue]
    exact (m.setBytes_rest _ _ _).2
  · obtain ⟨a, lower, upper, rfl⟩ := part
    by_cases near : a / pgSize = va / pgSize
    · rw [near]
      exact ⟨user, accessible⟩
    · have far : va + (pgSize - va % pgSize) ≤ a := by
        unfold pgSize at *
        omega
      obtain ⟨below, there⟩ := rest.accessible (a / pgSize)
        ⟨a, far, by rw [List.length_drop]; omega, rfl⟩
      rw [Accessible, entries d _ dir (page_lt below)] at there
      exact ⟨below, there⟩
  · rw [rest.contents a inside (by rw [entries d _ dir (page_lt inside)]; exact isMapped)]
    rcases Nat.lt_or_ge (pgSize - va % pgSize) bytes.length with more | all
    · rw [overlay_congr (written a inside isMapped), Nat.min_eq_left more.le]
      have length : (bytes.take (pgSize - va % pgSize)).length = pgSize - va % pgSize := by
        rw [List.length_take]
        omega
      have joined : overlay (overlay (spaceByte m d) va (bytes.take (pgSize - va % pgSize)))
          (va + (bytes.take (pgSize - va % pgSize)).length) (bytes.drop (pgSize - va % pgSize)) =
          overlay (spaceByte m d) va (bytes.take (pgSize - va % pgSize) ++
            bytes.drop (pgSize - va % pgSize)) := overlay_append
      rw [length, List.take_append_drop] at joined
      exact congrFun joined a
    · rw [Nat.min_eq_right all, List.drop_length, overlay_nil, List.take_length] at *
      exact written a inside isMapped

theorem Owned.copyout_writes (owned : Owned image m own) (dir : own d = .dir)
    (bound : va < 2 ^ 32) (returned : copyout d fuel m va bytes = .ok (true, final)) :
    CopiedOut image own d m va bytes final := by
  induction fuel generalizing m va bytes with
  | zero =>
    obtain ⟨rfl, rfl⟩ := copyout_zero returned
    exact .nil owned va
  | succ fuel ih =>
    rcases owned.copyout_cases dir bound returned with ⟨rfl, all⟩ | ⟨user, accessible, returned⟩
    · rw [all rfl]
      exact .nil owned va
    · have stored := (owned.setBytes_recoded dir user accessible.1 (va % pgSize)
        (bytes.take (min (pgSize - va % pgSize) bytes.length))).1
      exact .cons owned dir user accessible (ih stored.owned (nextPage_eq user).2 returned)

/-- A `copyout` to pages that user code may reach succeeds. -/
theorem Owned.copyout_returns (owned : Owned image m own) (dir : own d = .dir)
    (enough : bytes.length ≤ fuel)
    (accessible : ∀ v, pagesOf va bytes.length v → v < userPages ∧ Accessible m d v) :
    ∃ final, copyout d fuel m va bytes = .ok (true, final) := by
  induction fuel generalizing m va bytes with
  | zero =>
    obtain rfl : bytes = [] := List.length_eq_zero_iff.mp (Nat.le_zero.mp enough)
    exact ⟨m, rfl⟩
  | succ fuel ih =>
    by_cases empty : bytes = []
    · subst empty
      exact ⟨m, rfl⟩
    have some : 0 < bytes.length := List.length_pos_iff.mpr empty
    have inPage : va % pgSize < pgSize := Nat.mod_lt _ (by decide)
    obtain ⟨user, reached⟩ := accessible _ ⟨va, le_rfl, by omega, rfl⟩
    obtain ⟨stored, entries⟩ := owned.setBytes_recoded dir user reached.1 (va % pgSize)
      (bytes.take (min (pgSize - va % pgSize) bytes.length))
    rw [copyout_round fuel empty user reached]
    refine ih stored.owned (by rw [List.length_drop]; omega) fun v part => ?_
    obtain ⟨a, lower, upper, page⟩ := part
    rw [List.length_drop] at upper
    obtain ⟨below, there⟩ := accessible v ⟨a, by omega, by omega, page⟩
    rw [Accessible, entries d v dir (page_lt below)]
    exact ⟨below, there⟩

end MemoryEncryption
