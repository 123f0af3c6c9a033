import MemoryEncryption.Verif.ImageContents

/-!
# The stack of a new image

`exec` pushes the argument strings one below the other, each at a multiple of four,
and below them a frame of words that ends with their addresses. There is one page for
all of it, and the page below is closed. A `copyout` that succeeds has not met the
closed page, and every stretch begins where the one before ended, so all of them lie
in the one page; and if they fit there, every `copyout` succeeds.
-/

namespace MemoryEncryption

open Outcome

variable {σ : Type} {image : Image} {m m₀ final : Mem σ} {own own₀ : Nat → Owner} {d sz : Nat}
  {closed : Nat → Prop} {img : Nat → BitVec 8}

/-! ## What is pushed -/

/-- The space that a string takes, with its end and padding. -/
def argSpace (arg : List (BitVec 8)) : Nat := (arg.length + 4) / 4 * 4

/-- The space that the strings take together. -/
def argBytes (argv : List (List (BitVec 8))) : Nat := (argv.map argSpace).sum

/-- The addresses of the strings below a stack pointer. -/
def argAddrs : (sp : Nat) → List (List (BitVec 8)) → List Nat
  | _, [] => []
  | sp, arg :: rest => (sp - argSpace arg) :: argAddrs (sp - argSpace arg) rest

/-- The bytes of an image with the strings below a stack pointer. -/
def argImage (img : Nat → BitVec 8) : (sp : Nat) → List (List (BitVec 8)) → Nat → BitVec 8
  | _, [] => img
  | sp, arg :: rest => argImage (overlay img (sp - argSpace arg) (arg ++ [0])) (sp - argSpace arg) rest

/-- The words of `ustack` for strings below `sp`. -/
def argFrame (sp : Nat) (argv : List (List (BitVec 8))) : List Nat :=
  [0xFFFFFFFF, argv.length, sp - argBytes argv - (argv.length + 1) * 4] ++ argAddrs sp argv ++ [0]

/-- The stack pointer that `exec` leaves. -/
def stackPointer (sz : Nat) (argv : List (List (BitVec 8))) : Nat :=
  sz - argBytes argv - (argv.length + 4) * 4

/-- The bytes of an image of the given size with the arguments on its stack. -/
def stackImage (img : Nat → BitVec 8) (sz : Nat) (argv : List (List (BitVec 8))) : Nat → BitVec 8 :=
  overlay (argImage img sz argv) (stackPointer sz argv) ((argFrame sz argv).flatMap wordBytes)

/-- The arguments fit in the page of the stack. -/
def StackFits (argv : List (List (BitVec 8))) : Prop :=
  argBytes argv + (argv.length + 4) * 4 ≤ pgSize

instance (argv : List (List (BitVec 8))) : Decidable (StackFits argv) :=
  inferInstanceAs (Decidable (_ ≤ _))

theorem argSpace_bounds (arg : List (BitVec 8)) :
    arg.length + 1 ≤ argSpace arg ∧ argSpace arg ≤ arg.length + 4 ∧ argSpace arg % 4 = 0 := by
  unfold argSpace
  omega

@[simp] theorem argBytes_cons (arg : List (BitVec 8)) (rest : List (List (BitVec 8))) :
    argBytes (arg :: rest) = argSpace arg + argBytes rest := by
  simp [argBytes]

@[simp] theorem length_argAddrs (sp : Nat) (argv : List (List (BitVec 8))) :
    (argAddrs sp argv).length = argv.length := by
  induction argv generalizing sp with
  | nil => rfl
  | cons arg rest ih => simp [argAddrs, ih]

theorem length_argFrame (sp : Nat) (argv : List (List (BitVec 8))) :
    ((argFrame sp argv).flatMap wordBytes).length = (argv.length + 4) * 4 := by
  rw [length_flatMap_wordBytes, argFrame]
  simp only [List.length_append, List.length_cons, List.length_nil, length_argAddrs]
  omega

/-! ## `clearpteu` and `copyout` -/

variable {sp : Nat} {argv : List (List (BitVec 8))}

namespace Filled

theorem guard {v : Nat} (filled : Filled image m₀ own₀ d sz closed img m own)
    (opened : ∀ w, ¬ closed w) (inside : v < pagesBelow sz) :
    ∃ final, clearpteu m d (v * pgSize) = .ok final ∧
      Filled image m₀ own₀ d sz (· = v) img final own := by
  obtain ⟨final, cleared, building, entries, words⟩ := filled.toBuilding.guard inside
  have frame : ∀ w < userPages, frameOf (entry final d w) = frameOf (entry m d w) := by
    intro w bound
    rw [entries w bound]
    split
    · rename_i here
      rw [frameOf_clear _ (by decide), here]
    · rfl
  refine ⟨final, cleared, building, fun w below => ?_, fun w below => ?_, fun a below => ?_,
    filled.beyond⟩
  · rw [entries w (filled.lt_userPages below)]
    split
    · rename_i here
      subst here
      obtain ⟨present, plain⟩ := filled.present w below
      rw [has_pteP] at present
      rw [has_pteE] at plain
      rw [has_pteP, has_pteE, BitVec.getLsbD_and, BitVec.getLsbD_and, present, plain]
      exact ⟨by decide, by decide⟩
    · exact filled.present w below
  · rw [entries w (filled.lt_userPages below)]
    split
    · rename_i here
      rw [has_pteU, BitVec.getLsbD_and]
      exact iff_of_false (by simp [pteU]) (fun other => other here)
    · rename_i here
      exact iff_of_true ((filled.user w below).mpr (opened w)) here
  · have page := page_below.mpr below
    obtain ⟨user, mine⟩ := filled.page page
    rw [← filled.bytes a below, spaceByte, spaceByte, frame _ user, byte_congr (words _ _ mine)]

/-- A `copyout` that succeeds writes its bytes, and meets open pages only. -/
theorem copy (fuel : Nat) (filled : Filled image m₀ own₀ d sz closed img m own) {va : Nat}
    (bound : va < 2 ^ 32) {bytes : List (BitVec 8)}
    (returned : copyout d fuel m va bytes = .ok (true, final)) :
    Filled image m₀ own₀ d sz closed (overlay img va bytes) final own ∧
      ∀ k < bytes.length, (va + k) / pgSize < pagesBelow sz ∧ ¬ closed ((va + k) / pgSize) := by
  have copied := filled.owned.copyout_writes filled.live bound returned
  have opened : ∀ k < bytes.length,
      (va + k) / pgSize < pagesBelow sz ∧ ¬ closed ((va + k) / pgSize) := by
    intro k small
    obtain ⟨user, accessible⟩ := copied.accessible _ ⟨va + k, by omega, by omega, rfl⟩
    exact (filled.accessible_iff (page_lt user)).mp accessible
  refine ⟨filled.of_bytes (filled.toBuilding.copy fuel bound returned)
    (fun v user => copied.entries d v filled.live (page_lt user)) (fun a below => ?_)
    (fun a above => ?_), opened⟩
  · have page := page_below.mpr below
    rw [copied.contents a (filled.lt_userPages page) (filled.pages _ page)]
    exact overlay_congr (filled.bytes a below)
  · rw [overlay_outside, filled.beyond a above]
    by_contra inside
    have below := (opened (a - va) (by omega)).1
    rw [page_below] at below
    omega

/-! ## The arguments -/

/-- A stretch without a byte on the page `v` that ends near or above the end of that page lies above
it. -/
theorem above_of_avoids {b n v : Nat} (nonempty : 0 < n)
    (avoids : ∀ k < n, (b + k) / pgSize ≠ v) (reaches : (v + 1) * pgSize ≤ b + n + 3) :
    (v + 1) * pgSize ≤ b := by
  by_contra below
  have start := avoids 0 nonempty
  have middle := avoids (v * pgSize - b)
  unfold pgSize at *
  omega

theorem pushed_eq (arg : List (BitVec 8)) (aligned : sp % 4 = 0) (bound : sp < 2 ^ 32)
    (fits : arg.length + 1 ≤ sp) :
    (sp + 2 ^ 32 - (arg.length + 1) % 2 ^ 32) % 2 ^ 32 / 4 * 4 = sp - argSpace arg := by
  unfold argSpace
  omega

section Stack

variable {v : Nat}

theorem pagesBelow_stack (size : sz = (v + 2) * pgSize) : pagesBelow sz = v + 2 := by
  unfold pagesBelow pgSize at *
  omega

theorem copied_above (filled : Filled image m₀ own₀ d sz (· = v) img m own)
    (size : sz = (v + 2) * pgSize) {va : Nat} (bound : va < 2 ^ 32) {bytes : List (BitVec 8)}
    (nonempty : 0 < bytes.length) (reaches : (v + 1) * pgSize ≤ va + bytes.length + 3) (fuel : Nat)
    (returned : copyout d fuel m va bytes = .ok (true, final)) :
    Filled image m₀ own₀ d sz (· = v) (overlay img va bytes) final own ∧
      (v + 1) * pgSize ≤ va ∧ va + bytes.length ≤ sz := by
  obtain ⟨written, opened⟩ := filled.copy fuel bound returned
  refine ⟨written, above_of_avoids nonempty (fun k small => (opened k small).2) reaches, ?_⟩
  have last := (opened (bytes.length - 1) (by omega)).1
  rw [page_below, pagesBelow_stack size, ← size] at last
  omega

theorem copies_above (filled : Filled image m₀ own₀ d sz (· = v) img m own)
    (size : sz = (v + 2) * pgSize) (va : Nat) (bytes : List (BitVec 8)) (fuel : Nat)
    (low : (v + 1) * pgSize ≤ va) (high : va + bytes.length ≤ sz) (nonempty : 0 < bytes.length) :
    ∃ final, copyout d (fuel + 1) m va bytes = .ok (true, final) := by
  have page : va / pgSize = v + 1 := by
    unfold pgSize at *
    omega
  have inside : va / pgSize < pagesBelow sz := by
    rw [page, pagesBelow_stack size]
    omega
  have user := filled.lt_userPages inside
  have accessible := (filled.accessible_iff (page_lt user)).mpr ⟨inside, by omega⟩
  apply copyout_page va bytes fuel user accessible
  unfold pgSize at *
  omega

/-- Strings that have been pushed lie one below the other in the stack page. -/
theorem pushed (argv : List (List (BitVec 8))) (size : sz = (v + 2) * pgSize)
    (filled : Filled image m₀ own₀ d sz (· = v) img m own) {reached : Nat} {ustack addrs : List Nat}
    (low : (v + 1) * pgSize ≤ sp) (high : sp ≤ sz) (aligned : sp % 4 = 0)
    (few : ustack.length ≤ maxArg)
    (returned : pushArgs d argv m sp ustack = .ok (some (reached, addrs), final)) :
    (v + 1) * pgSize + argBytes argv ≤ sp ∧ reached = sp - argBytes argv ∧
      addrs = ustack ++ argAddrs sp argv ∧ addrs.length ≤ maxArg ∧
      Filled image m₀ own₀ d sz (· = v) (argImage img sp argv) final own := by
  induction argv generalizing m img sp ustack with
  | nil =>
    simp only [pushArgs, Except.ok.injEq, Prod.mk.injEq, Option.some.injEq] at returned
    obtain ⟨⟨rfl, rfl⟩, rfl⟩ := returned
    exact ⟨by simpa [argBytes] using low, by simp [argBytes], by simp [argAddrs], few, filled⟩
  | cons arg rest ih =>
    have top := filled.top
    have space := argSpace_bounds arg
    rw [pushArgs] at returned
    split at returned
    · simp at returned
    rename_i room
    obtain ⟨⟨done, m₁⟩, copied, returned⟩ := bind_eq_ok.mp returned
    cases done with
    | false => simp at returned
    | true =>
      simp only [↓reduceIte] at returned
      generalize moved : (sp + 2 ^ 32 - (arg.length + 1) % 2 ^ 32) % 2 ^ 32 / 4 * 4 = sp'
        at copied returned
      have length : (arg ++ [0]).length = arg.length + 1 := by simp
      have bound : sp' < 2 ^ 32 := by omega
      -- a string that does not fit below the pointer would end above the image
      have fits : arg.length + 1 ≤ sp := by
        have last := ((filled.copy _ bound copied).2 arg.length (by omega)).1
        rw [page_below, pagesBelow_stack size, ← size] at last
        unfold kernBase at top
        omega
      rw [pushed_eq arg aligned (by unfold kernBase at top; omega) fits] at moved
      obtain ⟨written, above, below⟩ := filled.copied_above size bound (by omega)
        (by rw [length]; omega) _ copied
      rw [← moved] at above returned written
      have less : arg.length + 1 + 3 < 2 ^ 32 := by
        unfold kernBase at top
        omega
      have smaller : argSpace arg ≤ sp := by
        unfold pgSize at above
        omega
      obtain ⟨fit, rfl, rfl, most, last⟩ := ih written above (by omega) (by omega)
        (by simp only [List.length_append, List.length_cons, List.length_nil]; omega) returned
      refine ⟨?_, ?_, ?_, most, last⟩
      · rw [argBytes_cons]
        omega
      · rw [argBytes_cons, Nat.sub_sub]
      · simp [argAddrs]

theorem pushes (argv : List (List (BitVec 8))) (size : sz = (v + 2) * pgSize)
    (filled : Filled image m₀ own₀ d sz (· = v) img m own) (sp : Nat) (ustack : List Nat)
    (high : sp ≤ sz) (aligned : sp % 4 = 0) (fits : (v + 1) * pgSize + argBytes argv ≤ sp)
    (few : ustack.length + argv.length ≤ maxArg) :
    ∃ pair final, pushArgs d argv m sp ustack = .ok (some pair, final) := by
  induction argv generalizing m img sp ustack with
  | nil => exact ⟨(sp, ustack), m, rfl⟩
  | cons arg rest ih =>
    have top := filled.top
    have space := argSpace_bounds arg
    rw [argBytes_cons] at fits
    rw [List.length_cons] at few
    have length : (arg ++ [0]).length = arg.length + 1 := by simp
    have bound : sp < 2 ^ 32 := by
      unfold kernBase at top
      omega
    obtain ⟨m₁, copied⟩ := filled.copies_above size (sp - argSpace arg) (arg ++ [0]) arg.length
      (by omega) (by omega) (by omega)
    obtain ⟨written, -⟩ := filled.copy _ (by omega) copied
    have shorter : ∃ pair final, pushArgs d rest m₁ (sp - argSpace arg)
        (ustack ++ [sp - argSpace arg]) = .ok (some pair, final) := by
      apply ih written
      · omega
      · omega
      · omega
      · simp only [List.length_append, List.length_cons, List.length_nil]
        omega
    obtain ⟨pair, last, pushing⟩ := shorter
    refine ⟨pair, last, ?_⟩
    rw [pushArgs, if_neg (by omega), pushed_eq arg aligned bound (by omega)]
    simp only [copied, ok_bind, ↓reduceIte]
    exact pushing

theorem frame_eq (few : argv.length ≤ maxArg) (bound : sz < 2 ^ 32)
    (fits : pgSize + argBytes argv ≤ sz) :
    (sz - argBytes argv + 2 ^ 32 - (3 + argv.length + 1) * 4) % 2 ^ 32 = stackPointer sz argv ∧
      [0xFFFFFFFF, argv.length, (sz - argBytes argv + 2 ^ 32 - (argv.length + 1) * 4) % 2 ^ 32] ++
        argAddrs sz argv ++ [0] = argFrame sz argv := by
  unfold maxArg pgSize at *
  have third : (sz - argBytes argv + 2 ^ 32 - (argv.length + 1) * 4) % 2 ^ 32 =
      sz - argBytes argv - (argv.length + 1) * 4 := by omega
  rw [third]
  refine ⟨?_, rfl⟩
  unfold stackPointer
  omega

/-- A stack that has been set up holds the arguments, which fit. -/
theorem arguments (argv : List (List (BitVec 8))) (size : sz = (v + 2) * pgSize)
    (filled : Filled image m₀ own₀ d sz (fun _ => False) img m own) {pair : Nat × Nat}
    (returned : argumentStack d m sz argv = .ok (some pair, final)) :
    StackFits argv ∧ pair = (sz, stackPointer sz argv) ∧
      Filled image m₀ own₀ d sz (· = v) (stackImage img sz argv) final own := by
  have top := filled.top
  have low : (sz + 2 ^ 32 - 2 * pgSize) % 2 ^ 32 = v * pgSize := by
    unfold pgSize kernBase at *
    omega
  obtain ⟨m₁, guarded, marked⟩ := filled.guard (v := v) (fun _ => id) (by
    rw [pagesBelow_stack size]
    omega)
  simp only [argumentStack, low, guarded, ok_bind] at returned
  obtain ⟨⟨reached, m₂⟩, pushing, returned⟩ := bind_eq_ok.mp returned
  cases reached with
  | none => simp at returned
  | some reached =>
    obtain ⟨sp, addrs⟩ := reached
    obtain ⟨fits, rfl, rfl, few, written⟩ := marked.pushed argv size (by unfold pgSize at *; omega)
      le_rfl (by unfold pgSize at *; omega) (by simp) pushing
    rw [List.nil_append, length_argAddrs] at few
    have bound : sz < 2 ^ 32 := by
      unfold kernBase at top
      omega
    obtain ⟨pointer, frame⟩ := frame_eq few bound (by unfold pgSize at *; omega)
    simp only [List.nil_append, length_argAddrs, pointer, frame] at returned
    obtain ⟨⟨done, m₃⟩, copied, returned⟩ := bind_eq_ok.mp returned
    cases done with
    | false => simp at returned
    | true =>
      simp only [↓reduceIte, Except.ok.injEq, Prod.mk.injEq, Option.some.injEq] at returned
      obtain ⟨rfl, rfl⟩ := returned
      have length := length_argFrame sz argv
      have place : stackPointer sz argv + (argv.length + 4) * 4 = sz - argBytes argv := by
        unfold stackPointer maxArg pgSize at *
        omega
      obtain ⟨finished, above, -⟩ := written.copied_above size (by omega) (by omega)
        (by omega) _ copied
      refine ⟨?_, rfl, finished⟩
      unfold StackFits
      rw [Nat.add_mul] at size
      rw [Nat.add_mul] at above
      omega

theorem fitting (argv : List (List (BitVec 8))) (size : sz = (v + 2) * pgSize)
    (filled : Filled image m₀ own₀ d sz (fun _ => False) img m own) (few : argv.length ≤ maxArg)
    (fits : StackFits argv) : ∃ pair final, argumentStack d m sz argv = .ok (some pair, final) := by
  have top := filled.top
  have low : (sz + 2 ^ 32 - 2 * pgSize) % 2 ^ 32 = v * pgSize := by
    unfold pgSize kernBase at *
    omega
  have bound : sz < 2 ^ 32 := by
    unfold kernBase at top
    omega
  unfold StackFits at fits
  obtain ⟨m₁, guarded, marked⟩ := filled.guard (v := v) (fun _ => id) (by
    rw [pagesBelow_stack size]
    omega)
  have room : (v + 1) * pgSize + argBytes argv + (argv.length + 4) * 4 ≤ sz := by
    unfold pgSize at *
    omega
  obtain ⟨pair, m₂, pushing⟩ := marked.pushes argv size sz [] le_rfl (by unfold pgSize at *; omega)
    (by omega) (by simpa using few)
  obtain ⟨sp, addrs⟩ := pair
  obtain ⟨-, rfl, rfl, -, written⟩ := marked.pushed argv size (by omega) le_rfl
    (by unfold pgSize at *; omega) (by simp) pushing
  obtain ⟨pointer, frame⟩ := frame_eq few bound (by unfold pgSize at *; omega)
  have length := length_argFrame sz argv
  have place : stackPointer sz argv + (argv.length + 4) * 4 = sz - argBytes argv := by
    unfold stackPointer
    omega
  obtain ⟨m₃, copied⟩ := written.copies_above size (stackPointer sz argv)
    ((argFrame sz argv).flatMap wordBytes) ((argv.length + 4) * 4 - 1) (by omega) (by omega) (by omega)
  rw [show (argv.length + 4) * 4 - 1 + 1 = ((argFrame sz argv).flatMap wordBytes).length by omega]
    at copied
  simp only [argumentStack, low, guarded, ok_bind, pushing, List.nil_append,
    length_argAddrs, pointer, frame, copied, ↓reduceIte]
  exact ⟨_, _, rfl⟩

end Stack

end Filled

/-! ## Reading the stack -/

/-- The word at an address. -/
def wordAt (img : Nat → BitVec 8) (a : Nat) : Nat := littleEndian (stretch img a 4)

/-- The string at an address, up to the byte that ends it. -/
def StringAt (img : Nat → BitVec 8) (a : Nat) (arg : List (BitVec 8)) : Prop :=
  stretch img a (arg.length + 1) = arg ++ [0] ∧ 0 ∉ arg

/-- What `main` finds on its stack by the calling convention: a return address, `argc`, and `argv`,
which points to the addresses of the strings, and a null pointer behind them. -/
structure CalledWith (img : Nat → BitVec 8) (esp : Nat) (argv : List (List (BitVec 8))) : Prop where
  /-- The return address is not one. -/
  returnAddress : wordAt img esp = 0xFFFFFFFF
  /-- The number of arguments. -/
  argc : wordAt img (esp + 4) = argv.length
  /-- The strings. -/
  strings : ∀ i, (inside : i < argv.length) →
    StringAt img (wordAt img (wordAt img (esp + 8) + 4 * i)) argv[i]
  /-- The null pointer. -/
  last : wordAt img (wordAt img (esp + 8) + 4 * argv.length) = 0

theorem littleEndian_wordBytes {value : Nat} (bound : value < 2 ^ 32) :
    littleEndian (wordBytes value) = value := by
  simp only [wordBytes, List.map_cons, List.map_nil, littleEndian, BitVec.toNat_ofNat]
  omega

variable {a : Nat}

theorem wordAt_congr {img img' : Nat → BitVec 8} (same : ∀ k < 4, img (a + k) = img' (a + k)) :
    wordAt img a = wordAt img' a := by
  rw [wordAt, wordAt, stretch_congr same]

theorem wordAt_overlay (img : Nat → BitVec 8) (start : Nat) (words : List Nat) {j word : Nat}
    (found : words[j]? = some word) (bound : word < 2 ^ 32) :
    wordAt (overlay img start (words.flatMap wordBytes)) (start + 4 * j) = word := by
  induction words generalizing img start j with
  | nil => simp at found
  | cons first rest ih =>
    have length : (wordBytes first).length = 4 := rfl
    rw [List.flatMap_cons, ← overlay_append, length]
    cases j with
    | zero =>
      obtain rfl : first = word := by simpa using found
      have kept : wordAt (overlay (overlay img start (wordBytes first)) (start + 4)
          (rest.flatMap wordBytes)) (start + 4 * 0) =
          wordAt (overlay img start (wordBytes first)) start :=
        wordAt_congr fun k small => overlay_outside (.inl (by omega))
      have back : stretch (overlay img start (wordBytes first)) start 4 = wordBytes first :=
        stretch_overlay
      rw [kept, wordAt, back]
      exact littleEndian_wordBytes bound
    | succ j =>
      rw [show start + 4 * (j + 1) = start + 4 + 4 * j by omega]
      exact ih _ _ (by simpa using found)

theorem argImage_above (argv : List (List (BitVec 8))) (fits : argBytes argv ≤ sp) (above : sp ≤ a) :
    argImage img sp argv a = img a := by
  induction argv generalizing img sp with
  | nil => rfl
  | cons arg rest ih =>
    have space := argSpace_bounds arg
    rw [argBytes_cons] at fits
    rw [argImage, ih (by omega) (by omega)]
    apply overlay_outside
    right
    simp only [List.length_append, List.length_cons, List.length_nil]
    omega

theorem argImage_below (argv : List (List (BitVec 8))) (below : a + argBytes argv < sp) :
    argImage img sp argv a = img a := by
  induction argv generalizing img sp with
  | nil => rfl
  | cons arg rest ih =>
    rw [argBytes_cons] at below
    rw [argImage, ih (by omega)]
    exact overlay_outside (.inl (by omega))

theorem stackImage_below {sz : Nat} (below : a + (argBytes argv + (argv.length + 4) * 4) < sz) :
    stackImage img sz argv a = img a := by
  rw [stackImage, overlay_outside (.inl (by unfold stackPointer; omega))]
  exact argImage_below argv (by omega)

theorem argImage_string (img : Nat → BitVec 8) (sp : Nat) (argv : List (List (BitVec 8))) {i : Nat}
    {arg : List (BitVec 8)} (fits : argBytes argv ≤ sp) (found : argv[i]? = some arg) :
    ∃ addr, (argAddrs sp argv)[i]? = some addr ∧ sp - argBytes argv ≤ addr ∧
      addr + (arg.length + 1) ≤ sp ∧
      stretch (argImage img sp argv) addr (arg.length + 1) = arg ++ [0] := by
  induction argv generalizing img sp i with
  | nil => simp at found
  | cons first rest ih =>
    have space := argSpace_bounds first
    rw [argBytes_cons] at fits ⊢
    simp only [argAddrs, argImage]
    cases i with
    | zero =>
      obtain rfl : first = arg := by simpa using found
      refine ⟨sp - argSpace first, by simp, by omega, by omega, ?_⟩
      -- the strings that follow lie below this one
      have kept : stretch (argImage (overlay img (sp - argSpace first) (first ++ [0]))
          (sp - argSpace first) rest) (sp - argSpace first) (first.length + 1) =
          stretch (overlay img (sp - argSpace first) (first ++ [0])) (sp - argSpace first)
            (first.length + 1) :=
        stretch_congr fun k small => argImage_above rest (by omega) (by omega)
      rw [kept, show first.length + 1 = (first ++ [0]).length by simp]
      exact stretch_overlay
    | succ i =>
      obtain ⟨addr, place, low, high, read⟩ := ih
        (overlay img (sp - argSpace first) (first ++ [0])) (sp - argSpace first) (i := i) (by omega)
        (by simpa using found)
      exact ⟨addr, by simpa using place, by omega, by omega, read⟩

/-- The arguments are found on the stack that was set up for them, by whoever reads the bytes of the
image. -/
theorem stackImage_called {seen : Nat → BitVec 8} {sz : Nat} (bound : sz < 2 ^ 32)
    (fits : argBytes argv + (argv.length + 4) * 4 ≤ sz) (strings : ∀ arg ∈ argv, 0 ∉ arg)
    (sees : ∀ a < sz, seen a = stackImage img sz argv a) :
    CalledWith seen (stackPointer sz argv) argv := by
  have frame := length_argFrame sz argv
  have pointer : stackPointer sz argv + (argv.length + 4) * 4 = sz - argBytes argv := by
    unfold stackPointer
    omega
  have read : ∀ j word, (argFrame sz argv)[j]? = some word → word < 2 ^ 32 →
      wordAt seen (stackPointer sz argv + 4 * j) = word := by
    intro j word found small
    have inside := (List.getElem?_eq_some_iff.mp found).1
    rw [length_flatMap_wordBytes] at frame
    rw [wordAt_congr fun k _ => sees _ (by omega)]
    exact wordAt_overlay _ _ _ found small
  have table : wordAt seen (stackPointer sz argv + 8) = stackPointer sz argv + 12 := by
    rw [read 2 (sz - argBytes argv - (argv.length + 1) * 4) (by simp [argFrame]) (by omega)]
    omega
  refine ⟨read 0 _ (by simp [argFrame]) (by decide), read 1 _ (by simp [argFrame]) (by omega),
    fun i inside => ?_, ?_⟩
  · obtain ⟨addr, place, low, high, string⟩ := argImage_string img sz argv (by omega)
      (List.getElem?_eq_getElem inside)
    have word : (argFrame sz argv)[3 + i]? = some addr := by
      rw [argFrame, List.append_assoc, List.getElem?_append_right (by simp),
        List.getElem?_append_left (by simpa using inside)]
      simpa using place
    rw [table, show stackPointer sz argv + 12 + 4 * i = stackPointer sz argv + 4 * (3 + i) by omega,
      read _ _ word (by omega)]
    refine ⟨?_, strings _ (List.getElem_mem inside)⟩
    rw [← string]
    refine stretch_congr fun k small => ?_
    rw [sees _ (by omega)]
    exact overlay_outside (.inr (by omega))
  · have word : (argFrame sz argv)[3 + argv.length]? = some 0 := by
      rw [argFrame, List.append_assoc, List.getElem?_append_right (by simp),
        List.getElem?_append_right (by simp)]
      simp
    rw [table, show stackPointer sz argv + 12 + 4 * argv.length =
      stackPointer sz argv + 4 * (3 + argv.length) by omega]
    exact read _ _ word (by decide)

end MemoryEncryption
