import MemoryEncryption.Verif.StackContents
import MemoryEncryption.Verif.ExecOutcome
import MemoryEncryption.Verif.Reruns
import MemoryEncryption.Verif.WorkingSet

/-!
# The image that `exec` leaves

A program begins with the segments of its file over zeros, with its arguments on the
stack as the calling convention has them, and with every page closed but the one
below the stack, which it may not use. Whether the arguments are accepted depends on
their space alone.
-/

namespace MemoryEncryption

open Outcome

variable {σ : Type} {image : Image} {m final : Mem σ} {own : Nat → Owner} {d size : Nat}
  {file : List (BitVec 8)}

/-- The segments of a file and the two pages for its stack load into the new address space `d`, which
then has the given size. -/
def PagesLoad (image : Image) (ops : ClockOps σ) (m : Mem σ) (file : List (BitVec 8)) (d size : Nat)
    (final : Mem σ) : Prop :=
  ∃ header m₁ sz m₂, readHeader file 0 elfHdrSize = some header ∧
    (elfHdr header).magic = elfMagic ∧ setupkvm image ops m = .ok (some d, m₁) ∧
    loadSegments image ops d file (elfHdr header).phnum m₁ (elfHdr header).phoff 0 =
      .ok (some sz, m₂) ∧
    allocuvm image ops m₂ d (pgRoundUp sz) ((pgRoundUp sz + 2 * pgSize) % 2 ^ 32) =
      .ok (size, final) ∧
    size ≠ 0

variable {program : Loaded}

/-- An image that could be loaded had its pages loaded first. -/
theorem loadImage_pages {ops : ClockOps σ} {argv : List (List (BitVec 8))}
    (returned : loadImage image ops m file argv = .ok (some program, final)) :
    ∃ size m₁, PagesLoad image ops m file program.pgdir size m₁ ∧
      argumentStack program.pgdir m₁ size argv = .ok (some (program.sz, program.sp), final) := by
  rw [loadImage] at returned
  cases read : readHeader file 0 elfHdrSize with
  | none => simp [read] at returned
  | some header =>
    simp only [read] at returned
    split at returned
    · simp at returned
    rename_i magic
    obtain ⟨⟨made, m₁⟩, setup, returned⟩ := bind_eq_ok.mp returned
    cases made with
    | none => simp at returned
    | some d =>
      obtain ⟨⟨sz, m₂⟩, segments, returned⟩ := bind_eq_ok.mp returned
      cases sz with
      | none =>
        simp only [ok_bind] at returned
        obtain ⟨_, -, finished⟩ := bind_eq_ok.mp returned
        simp at finished
      | some sz =>
        obtain ⟨⟨stack, m₃⟩, stacked, returned⟩ := bind_eq_ok.mp returned
        cases stack with
        | none =>
          obtain ⟨_, -, finished⟩ := bind_eq_ok.mp returned
          simp at finished
        | some pair =>
          simp only [Except.ok.injEq, Prod.mk.injEq, Option.some.injEq] at returned
          obtain ⟨rfl, rfl⟩ := returned
          rw [setupStack_eq] at stacked
          obtain ⟨⟨size, m₄⟩, grown, stacked⟩ := bind_eq_ok.mp stacked
          simp only at stacked
          split at stacked
          · simp at stacked
          rename_i nonzero
          exact ⟨size, m₄, ⟨header, m₁, sz, m₂, read, by simpa using magic, setup, segments, grown,
            nonzero⟩, stacked⟩

theorem setupkvm_filled {ops : ClockOps σ} (owned : Owned image m own)
    (setup : setupkvm image ops m = .ok (some d, final)) :
    own d = .free ∧ ∃ own', Filled image m own d 0 (fun _ => False) (fun _ => 0) final own' := by
  obtain ⟨made, final', own', setup', owned', apart, queue, outcome, -⟩ := setupkvm_spec owned
  rw [setup'] at setup
  cases setup
  obtain ⟨_, same, fresh, live, kind, empty, covered⟩ := outcome.resolve_right (by simp)
  cases same
  have nothing : pagesBelow 0 = 0 := by decide
  refine ⟨fresh, own', ⟨owned', live, apart d, kind, queue, by omega, ?_,
    fun v _ upper => empty v upper, covered _ (kmap_covers_last image)⟩, ?_, ?_, ?_, fun _ _ => rfl⟩
  · simp [nothing]
  · simp [nothing]
  · simp [nothing]
  · simp [nothing]

namespace PagesLoad

variable {ops : ClockOps σ}

theorem newSpace_eq (loads : PagesLoad image ops m file d size final) :
    ∃ start, ∀ argv, newSpace image ops m file argv =
      (argumentStack d final size argv >>= fun result =>
        .ok (some d, result.1.map fun pair => ⟨d, pair.1, pair.2, start⟩, result.2)) := by
  obtain ⟨header, m₁, sz, m₂, read, magic, setup, segments, grown, nonzero⟩ := loads
  refine ⟨(elfHdr header).entry, fun argv => ?_⟩
  rw [newSpace, read]
  simp only [magic, ne_eq, not_true_eq_false, ↓reduceIte, setup, ok_bind, segments,
    setupStack_eq, grown, nonzero]

theorem steady (loads : PagesLoad image ops m file d size final) :
    PagesLoad image ops.steady m file d size final := by
  obtain ⟨header, m₁, sz, m₂, read, magic, setup, segments, grown, nonzero⟩ := loads
  exact ⟨header, m₁, sz, m₂, read, magic, setupkvm_steady setup, loadSegments_steady _ segments,
    allocuvm_steady grown nonzero, nonzero⟩

/-- The pages that have been loaded hold the segments over zeros. -/
theorem filled (loads : PagesLoad image ops m file d size final) (owned : Owned image m own)
    (small : file.length < 2 ^ 32) :
    own d = .free ∧ ∃ guard own', size = (guard + 2) * pgSize ∧
      Filled image m own d size (fun _ => False) (fileImage file) final own' := by
  obtain ⟨header, m₁, sz, m₂, read, -, setup, segments, grown, nonzero⟩ := loads.steady
  obtain ⟨fresh, own₁, start⟩ := setupkvm_filled owned setup
  obtain ⟨own₂, loaded⟩ := start.segments ops small _ _ (fun _ => id) segments
  have round : pgRoundUp sz = pagesBelow sz * pgSize := pgRoundUp_eq loaded.top
  have top := loaded.round.top
  have whole : (pagesBelow sz * pgSize + 2 * pgSize) % 2 ^ 32 = (pagesBelow sz + 2) * pgSize := by
    unfold pgSize kernBase at *
    omega
  rw [round, whole] at grown
  obtain ⟨reached, own₃, larger⟩ := loaded.round.grow ops grown nonzero fun _ _ => id
  have image_eq : fileImage file =
      segmentsImage file (elfHdr header).phnum (elfHdr header).phoff fun _ => 0 := by
    rw [fileImage, read]
  rw [image_eq]
  refine ⟨fresh, pagesBelow sz, own₃, ?_, larger⟩
  unfold pgSize at *
  omega

end PagesLoad

/-- A page of the construction is loaded if the file has its bytes. -/
theorem Filled.loads_page {m₀ : Mem σ} {own₀ : Nat → Owner} {sz off n : Nat} {closed : Nat → Prop}
    {img : Nat → BitVec 8} (filled : Filled image m₀ own₀ d sz closed img m own)
    (inside : 0 < pagesBelow sz) (whole : n ≤ pgSize) (inFile : off + n ≤ file.length)
    (small : file.length < 2 ^ 32) :
    ∃ final, loaduvm m d 0 file off n = .ok (true, final) ∧ final.oom = m.oom ∧
      final.freelist = m.freelist ∧
      ∀ i t, i < 1024 → tableOf m d i = some t → tableOf final d i = some t := by
  have rounds : pageCount 0 n = 0 ∧ n = 0 ∨ pageCount 0 n = 1 := by
    unfold pageCount pgSize at *
    omega
  rw [loaduvm, if_neg (by decide)]
  rcases rounds with ⟨none, -⟩ | one
  · rw [none]
    exact ⟨m, rfl, rfl, rfl, fun _ _ _ found => found⟩
  · obtain ⟨pte, found, value⟩ := exists_pteAt (filled.pages 0 inside)
    obtain ⟨-, mine⟩ := filled.page inside
    have length : ((file.drop off).take n).length = n := by
      rw [List.length_take, List.length_drop]
      omega
    have read : readi file ((off + 0) % 2 ^ 32) n = some ((file.drop off).take n) := by
      have start : (off + 0) % 2 ^ 32 = off := Nat.mod_eq_of_lt (by omega)
      rw [start, readi, if_neg (by omega)]
    have walk : (walkpgdir m d ((0 + 0) % 2 ^ 32) false).1 = some pte := walkpgdir_first found
    have words : ∀ {f : Nat}, f ≠ frameOf (entry m d 0) → ∀ i,
        (m.setBytes (frameOf (entry m d 0)) 0 ((file.drop off).take n)).word f i = m.word f i :=
      fun other => m.setBytes_word_of_ne _ 0 _ other
    have tables := (filled.owned.lookups_eq (m.setBytes (frameOf (entry m d 0)) 0
      ((file.drop off).take n)) filled.live
      (words (fun same => by rw [← same, filled.live] at mine; simp at mine))
      (fun f j i isTable => words (fun same => by rw [← same, isTable] at mine; simp at mine) i)).1
    refine ⟨m.setBytes (frameOf (entry m d 0)) 0 ((file.drop off).take n), ?_,
      m.setBytes_oom _ _ _, (m.setBytes_rest _ _ _).1, fun i t _ there => by rw [tables, there]⟩
    rw [one, loaduvmLoop, walk]
    simp only [read, value, Nat.sub_zero, Nat.min_eq_left whole, length, ne_eq, not_true_eq_false,
      ↓reduceIte]
    rfl

/-- A file with one segment of one page loads where there is room for page tables and three pages. -/
theorem PagesLoad.of_segment (ops : ClockOps σ) (owned : Owned image m own) (calm : m.oom = [])
    (room : 1028 ≤ m.freelist.length) (header row : List (BitVec 8)) (off n : Nat)
    (read : readHeader file 0 elfHdrSize = some header) (magic : (elfHdr header).magic = elfMagic)
    (one : (elfHdr header).phnum = 1)
    (readRow : readHeader file (elfHdr header).phoff progHdrSize = some row)
    (segment : progHdr row = ⟨elfProgLoad, off, 0, n, pgSize⟩) (whole : n ≤ pgSize)
    (inFile : off + n ≤ file.length) (small : file.length < 2 ^ 32) :
    ∃ d final, PagesLoad image ops m file d (3 * pgSize) final := by
  obtain ⟨made, m₁, -, setup, -, -, -, -, progress⟩ := setupkvm_spec owned
  obtain ⟨d, rfl, ample₁⟩ := progress 3 calm room
  obtain ⟨-, own₁, start⟩ := setupkvm_filled owned (setup ops)
  obtain ⟨done, m₂, own₂, grown, -, -, -, -, more⟩ := allocuvm_uniform start.owned start.live
    (show pgSize < kernBase by decide)
    (fun v lower upper => start.vacant v lower (lt_of_lt_of_le upper (by decide))) (Nat.zero_le _)
  obtain ⟨rfl, ample₂⟩ := more 2 ample₁
  obtain ⟨-, own₃, filled₂⟩ := start.grow ops (grown ops.steady (by simp)) (by decide) fun _ _ => id
  obtain ⟨m₃, loaded, oom, list, tables⟩ := filled₂.loads_page (by decide) whole inFile small
  have filled₃ := filled₂.load small (by omega) (by simpa using whole) loaded
  obtain ⟨done, m₄, own₄, grown', -, -, -, -, more'⟩ := allocuvm_uniform filled₃.owned filled₃.live
    (show 3 * pgSize < kernBase by decide)
    (fun v lower upper => filled₃.vacant v lower (lt_of_lt_of_le upper (by decide))) (by decide)
  obtain ⟨rfl, -⟩ := more' 0 (ample₂.keep oom list tables)
  refine ⟨d, m₄, header, m₁, pgSize, m₃, read, magic, setup ops, ?_, ?_, by decide⟩
  · rw [one, loadSegments, readRow]
    simp only [segment, ne_eq, not_true_eq_false, ↓reduceIte, Nat.not_lt.mpr whole, Nat.zero_add]
    have size : pgSize % 2 ^ 32 = pgSize := by decide
    rw [size, grown ops (by simp)]
    simp only [↓reduceIte, ok_bind, loaded]
    rfl
  · exact grown' ops (by simp)

/-! ## After the commitment -/

/-- A program that has just been loaded: its pages are closed, the one below the stack is not for
the user, and they hold the bytes of `img`. -/
structure Started (m : Mem σ) (proc : Proc σ) (guard : Nat) (img : Nat → BitVec 8) : Prop where
  size : proc.sz = (guard + 2) * pgSize
  closed : ∀ v < guard + 2, v ≠ guard → has (entry m proc.pgdir v) pteE = true ∧
    has (entry m proc.pgdir v) pteU = true ∧ has (entry m proc.pgdir v) pteP = false
  guarded : has (entry m proc.pgdir guard) pteU = false
  bytes : ∀ a < (guard + 2) * pgSize, plainByte m proc.pgdir a = img a

/-- `exec` of a program that could be loaded leaves the image as it was loaded, and closed. -/
theorem exec_started (ops : ClockOps σ) {s : Machine σ} (sane : Sane image s own) {p : Nat}
    (member : HasSpace s.proc p) (calm : ∀ pte, ops.remove ops.init pte = .ok ops.init)
    (small : file.length < 2 ^ 32) {argv : List (List (BitVec 8))} {m₁ : Mem σ}
    (loading : loadImage image ops (s.load p) file argv = .ok (some program, m₁))
    (path : List (BitVec 8)) :
    StackFits argv ∧ ∃ guard final, exec image ops s p (some file) path argv = .ok (true, final) ∧
      (final.proc p).sz = program.sz ∧ (final.proc p).queue = ops.init ∧
      (final.proc p).tf.esp = stackPointer (final.proc p).sz argv ∧
      Started final.mem (final.proc p) guard
        (stackImage (fileImage file) (final.proc p).sz argv) ∧
      has (entry final.mem (final.proc p).pgdir guard) pteP = true ∧
      has (entry final.mem (final.proc p).pgdir guard) pteE = false := by
  obtain ⟨size, m₀, loads, stacked⟩ := loadImage_pages loading
  obtain ⟨fresh, guard, own₁, length, filled₀⟩ := loads.filled (sane.load p) small
  obtain ⟨fits, pair, filled⟩ := filled₀.arguments argv length stacked
  obtain ⟨rfl, pointer⟩ := Prod.mk.inj pair
  obtain ⟨coded, m₃, own₃, returned, done⟩ := exec_commits ops sane member calm loading fresh
    filled.toBuilding path
  have pages := Filled.pagesBelow_stack length
  have different : program.pgdir ≠ (s.proc p).pgdir := by
    intro same
    rw [same, sane.live member] at fresh
    simp at fresh
  -- every page keeps its plaintext while it is encrypted, and is out of reach of `freevm`
  have kept : ∀ v < guard + 2, entry m₃ program.pgdir v = entry coded program.pgdir v ∧
      plaintext m₃ program.pgdir v = plaintext m₁ program.pgdir v ∧
      exactlyOne (entry coded program.pgdir v) = true ∧
      (has (entry coded program.pgdir v) pteU = true ↔ v ≠ guard) := by
    intro v bound
    rw [← pages] at bound
    have user := filled.lt_userPages bound
    obtain ⟨present, plain⟩ := filled.present v bound
    obtain ⟨one, same⟩ := done.preserved _ v filled.live user
      (show exactlyOne (entry m₁ program.pgdir v) = true by rw [exactlyOne, present, plain]; rfl)
    obtain ⟨entries, -, plaintexts⟩ := done.apart.carries_page done.recoded.owned filled.live
      different user (mapped_of_exactlyOne one)
    refine ⟨entries, plaintexts.trans same, one, ?_⟩
    rw [has_pteU, user_of_codeFlags (done.recoded.entries _ v filled.live (page_lt user)), ← has_pteU]
    exact filled.user v bound
  refine ⟨fits, guard, _, returned, by simp, by simp [done.queue], by simp [pointer], ?_⟩
  simp only [Machine.put_proc, Function.update_self, Machine.put_mem]
  refine ⟨⟨length, fun v bound other => ?_, ?_, fun a below => ?_⟩, ?_⟩
  · obtain ⟨same, -, one, user⟩ := kept v bound
    have hidden := done.hidden v (by rw [pages]; exact bound)
    have allowed := user.mpr other
    rw [Exposed, allowed] at hidden
    rw [same, allowed]
    rw [exactlyOne] at one
    revert one hidden
    cases has (entry coded program.pgdir v) pteP <;>
      cases has (entry coded program.pgdir v) pteE <;> simp
  · obtain ⟨same, -, -, user⟩ := kept guard (by omega)
    rw [same, Bool.eq_false_iff, ne_eq, user]
    simp
  · have page : a / pgSize < guard + 2 := page_below.mpr below
    obtain ⟨-, same, -⟩ := kept _ page
    rw [← pages] at page below
    rw [plainByte_congr same, plainByte_open (filled.present _ page).2]
    exact filled.bytes a below
  · -- the guard page is not accessible, so no call of `mencrypt` gets to it
    obtain ⟨same, -, -, user⟩ := kept guard (by omega)
    have inside : guard < pagesBelow program.sz := by omega
    rw [same]
    rcases done.sealing program.pgdir guard filled.live (page_lt (filled.lt_userPages inside)) with
      kept' | ⟨-, -, accessible⟩
    · rw [kept']
      exact filled.present guard inside
    · exact absurd rfl (user.mp accessible)

theorem loaded_of_exec {ops : ClockOps σ} {s s' : Machine σ} {p : Nat} {path : List (BitVec 8)}
    {argv : List (List (BitVec 8))}
    (returned : exec image ops s p (some file) path argv = .ok (true, s')) :
    ∃ program m₁, loadImage image ops (s.load p) file argv = .ok (some program, m₁) := by
  rw [exec] at returned
  obtain ⟨⟨loaded, m₁⟩, loading, returned⟩ := bind_eq_ok.mp returned
  cases loaded with
  | none => simp at returned
  | some program => exact ⟨program, m₁, loading⟩

/-! ## The segments -/

theorem PagesLoad.accepts {ops : ClockOps σ} (loads : PagesLoad image ops m file d size final)
    (owned : Owned image m own) (argv : List (List (BitVec 8))) (small : file.length < 2 ^ 32)
    (few : argv.length ≤ maxArg) (fits : StackFits argv) :
    ∃ program m₂, loadImage image ops m file argv = .ok (some program, m₂) ∧
      program.sz = size := by
  obtain ⟨-, guard, own₁, length, filled⟩ := loads.filled owned small
  obtain ⟨pair, m₂, stacked⟩ := filled.fitting argv length few fits
  obtain ⟨-, rfl, -⟩ := filled.arguments argv length stacked
  obtain ⟨start, making⟩ := loads.newSpace_eq
  refine ⟨⟨d, size, stackPointer size argv, start⟩, m₂, ?_, rfl⟩
  rw [MemoryEncryption.loadImage_eq, making argv, stacked]
  rfl

/-- A file with a header and one segment of four bytes in a page. -/
def segmentFile : List (BitVec 8) :=
  wordBytes elfMagic ++ List.replicate 24 0 ++ wordBytes elfHdrSize ++ List.replicate 12 0 ++
    [1, 0] ++ List.replicate 6 0 ++ [elfProgLoad, 84, 0, 0, 4, pgSize, 0, 0].flatMap wordBytes ++
    [1, 2, 3, 4]

theorem segmentFile_loads (ops : ClockOps σ) (owned : Owned image m own) (calm : m.oom = [])
    (room : 1028 ≤ m.freelist.length) :
    ∃ d final, PagesLoad image ops m segmentFile d (3 * pgSize) final :=
  PagesLoad.of_segment ops owned calm room (segmentFile.take 52) ((segmentFile.drop 52).take 32) 84 4
    (by decide +kernel) (by decide +kernel) (by decide +kernel) (by decide +kernel)
    (by rw [progHdr, ProgHdr.mk.injEq]; decide +kernel) (by decide) (by decide +kernel)
    (by decide +kernel)

/-- The file is started by a process with room for it; its guard page is page 1. -/
theorem segmentFile_started :
    ∃ s', exec sampleImage clockOps roomySetup.machine 0 (some segmentFile) [] [[97]] =
        .ok (true, s') ∧ (s'.proc 0).sz = 3 * pgSize ∧ (s'.proc 0).queue = cqInit ∧
      Started s'.mem (s'.proc 0) 1 (stackImage (fileImage segmentFile) (s'.proc 0).sz [[97]]) ∧
      has (entry s'.mem (s'.proc 0).pgdir 1) pteP = true := by
  have owned := roomySetup.sane.load 0
  have small : segmentFile.length < 2 ^ 32 := by decide +kernel
  obtain ⟨d, m, loads⟩ := segmentFile_loads clockOps owned rfl
    (show 1028 ≤ (List.range' 500 1100).length by simp)
  obtain ⟨program, m₁, loading, length⟩ := loads.accepts owned [[97]] small (by decide)
    (by decide)
  obtain ⟨-, guard, s', returned, sz, queue, -, started, present, -⟩ := exec_started clockOps
    roomySetup.sane (roomySetup.hasSpace_iff.mpr rfl) cqInit_remove small loading []
  have size := started.size
  rw [sz, length] at size
  obtain rfl : guard = 1 := by
    unfold pgSize at size
    omega
  exact ⟨s', returned, sz.trans length, queue, started, present⟩

/-- When `exec` returns 0, every page below the size but the guard page is encrypted and open to the
user, the guard page is not, the clock queue is empty, and below the guard page user code finds the
segments of the file, in the order of their headers, over zeros. -/
theorem exec_image (image : Image) (managed : Nat → Prop) (s s' : Machine (Queue PteAddr)) (p : Nat)
    (file path : List (BitVec 8)) (argv : List (List (BitVec 8)))
    (start : Consistent image managed s) (ready : s.ready p = true) (small : file.length < 2 ^ 32)
    (returned : exec image clockOps s p (some file) path argv = .ok (true, s')) :
    ∃ guard, (s'.proc p).sz = (guard + 2) * pgSize ∧
      (∀ v < guard + 2, v ≠ guard → has (entry s'.mem (s'.proc p).pgdir v) pteE = true ∧
        has (entry s'.mem (s'.proc p).pgdir v) pteU = true ∧
        has (entry s'.mem (s'.proc p).pgdir v) pteP = false) ∧
      has (entry s'.mem (s'.proc p).pgdir guard) pteU = false ∧
      (s'.proc p).queue.hand = -1 ∧
      (∀ i < clockSize, ((s'.proc p).queue.slot i).empty = -1) ∧
      ∀ a < guard * pgSize, plainByte s'.mem (s'.proc p).pgdir a = fileImage file a := by
  obtain ⟨sane, -⟩ := start.sane
  obtain ⟨program, m₁, loading⟩ := loaded_of_exec returned
  obtain ⟨fits, guard, final, returned', -, queue, -, started, -⟩ := exec_started clockOps sane
    (hasSpace_of_ready ready) cqInit_remove small loading path
  rw [returned] at returned'
  cases returned'
  refine ⟨guard, started.size, started.closed, started.guarded, ?_, ?_, fun a below => ?_⟩
  · rw [queue]
    rfl
  · intro i _
    rw [queue]
    rfl
  · have stack : (guard + 2) * pgSize = guard * pgSize + 2 * pgSize := Nat.add_mul _ _ _
    unfold StackFits at fits
    rw [started.bytes a (by omega), started.size]
    exact stackImage_below (by omega)

/-- A process loads the file and gets its bytes, below the guard page. -/
theorem segmentFile_image :
    ∃ s', exec sampleImage clockOps roomySetup.machine 0 (some segmentFile) [] [[97]] =
        .ok (true, s') ∧ (s'.proc 0).sz = 3 * pgSize ∧
      has (entry s'.mem (s'.proc 0).pgdir 1) pteU = false ∧
      plainByte s'.mem (s'.proc 0).pgdir 1 = 2 := by
  obtain ⟨s', returned, sz, -⟩ := segmentFile_started
  obtain ⟨guard, size, -, guarded, -, -, bytes⟩ := exec_image sampleImage _ roomySetup.machine s' 0
    segmentFile [] [[97]] roomySetup.sane.consistent rfl (by decide +kernel) returned
  rw [sz] at size
  obtain rfl : guard = 1 := by
    unfold pgSize at size
    omega
  refine ⟨s', returned, sz, guarded, ?_⟩
  rw [bytes 1 (by decide)]
  decide +kernel

/-! ## The arguments of a program -/

section Arguments

variable {ops : ClockOps σ} {s : Machine σ} {p : Nat} {m₁ : Mem σ} {argv : List (List (BitVec 8))}

/-- Arguments that do not fit are rejected where the pages load, and the address space is freed. -/
theorem PagesLoad.rejects (loads : PagesLoad image ops (s.load p) file d size m₁)
    (owned : Owned image (s.load p) own) (small : file.length < 2 ^ 32)
    (total : (argv.map List.length).sum < size) (exceeds : ¬ StackFits argv)
    (quiet : ∀ d now, newSpace image ops.steady (s.load p) file argv = .ok (some d, none, now) →
      QuietOn ops (s.load p).queue now d 0 userPages) :
    ∃ m₂, loadImage image ops (s.load p) file argv = .ok (none, m₂) := by
  obtain ⟨fresh, guard, own₁, length, filled⟩ := loads.filled owned small
  obtain ⟨kept, returns⟩ := filled.toBuilding.arguments length argv
  obtain ⟨⟨stack, m₂⟩, stacked⟩ := returns total
  cases stack with
  | some pair => exact absurd (filled.arguments argv length stacked).1 exceeds
  | none =>
    obtain ⟨building, -⟩ := kept none m₂ stacked
    obtain ⟨_, steadily⟩ := loads.steady.newSpace_eq
    have reached : newSpace image ops.steady (s.load p) file argv = .ok (some d, none, m₂) := by
      rw [steadily argv, stacked]
      rfl
    obtain ⟨m₃, _, freed, -⟩ := freevm_undo ops fresh building.owned building.live building.apart
      building.kind building.queue (quiet d m₂ reached)
    obtain ⟨start, making⟩ := loads.newSpace_eq
    refine ⟨m₃, ?_⟩
    rw [MemoryEncryption.loadImage_eq, making argv, stacked]
    simp only [ok_bind, Option.map_none, discard, freed]

end Arguments

theorem cqInit_pointsElsewhere (m : Mem (Queue PteAddr)) (d : Nat) : PointsElsewhere cqInit m d := by
  intro i _ v _ pte _
  simp [cqInit]

theorem PagesLoad.repeats {ops : ClockOps σ} (loads : PagesLoad image ops m file d size final)
    (bare : ∀ header, readHeader file 0 elfHdrSize = some header → (elfHdr header).phnum = 0) :
    Repeats m final fun x y => PagesLoad image ops x file d size y := by
  obtain ⟨header, m₁, sz, m₂, read, magic, setup, segments, grown, nonzero⟩ := loads
  have none : (elfHdr header).phnum = 0 := bare header read
  rw [none] at segments
  obtain ⟨same, rfl⟩ := Prod.mk.inj (Except.ok.inj segments)
  cases same
  refine (Repeats.setupkvm setup).trans (Repeats.allocuvm grown nonzero) ?_
  intro x y z _ _ setup' grown'
  refine ⟨header, y, 0, y, read, magic, setup', ?_, grown', nonzero⟩
  rw [none]
  rfl

/-- A process with one page whose queue points to a page table entry that is not its own. -/
def straySetup (pte : PteAddr) : Setup (Queue PteAddr) :=
  { roomySetup with queue := strayQueue pte }

/-- An argument that does not fit, though it is shorter than the image. -/
def longArgument : List (BitVec 8) := List.replicate 4096 97

theorem PagesLoad.size_bare {ops : ClockOps σ} (loads : PagesLoad image ops m file d size final)
    (bare : ∀ header, readHeader file 0 elfHdrSize = some header → (elfHdr header).phnum = 0) :
    size = 2 * pgSize := by
  obtain ⟨header, m₁, sz, m₂, read, -, -, segments, grown, nonzero⟩ := loads
  rw [bare header read] at segments
  obtain ⟨same, rfl⟩ := Prod.mk.inj (Except.ok.inj segments)
  cases same
  rw [allocuvm, if_neg (by decide), if_neg (by decide)] at grown
  obtain ⟨⟨done, m₃⟩, -, returned⟩ := bind_eq_ok.mp grown
  cases returned
  cases done with
  | true => rfl
  | false => exact absurd rfl nonzero

end MemoryEncryption
