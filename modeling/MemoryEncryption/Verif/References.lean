import MemoryEncryption.Kernel.OpenFiles
import MemoryEncryption.Library.Tally
import MemoryEncryption.Verif.InodeCalls

/-!
# References to open files, inodes and pipes

The reference count of an open file is the number of descriptors for it, that of a
cached inode the number of open files and current directories that use it, and a pipe
exists while one of its ends is open. Within a call the counts also include what the
call holds itself. Every call gives back what it has taken, on each of its paths.
-/

namespace MemoryEncryption

open Function Outcome

theorem yields_true {α : Type} (x : Except Halt α) : Yields (fun _ => True) (fun _ => True) x := by
  cases x with
  | error stop => trivial
  | ok value => trivial

namespace Fs

variable {base base' : Fin nInode → Nat} {refs refs' locks : List (Fin nInode)} {s : Fs}

theorem counting_rules : Writes (fun _ => True) (fun _ => True) where
  stops := fun _ _ => trivial
  iget := fun _ _ => yields_true _
  idup := fun _ _ => trivial
  ilock := fun _ _ => yields_true _
  iunlock := fun _ _ => yields_true _
  iput := fun _ _ => yields_true _
  readi := fun _ _ _ _ _ => yields_true _
  ialloc := fun _ _ => yields_true _
  writei := fun _ _ _ _ _ => yields_true _
  update := fun _ _ _ _ _ => trivial

theorem Call.counting (call : s.Call base refs locks) :
    s.At (fun _ => True) base refs locks := ⟨trivial, call⟩

theorem Call.rebase (call : s.Call base refs locks)
    (same : ∀ k, base' k + refs'.count k = base k + refs.count k) : s.Call base' refs' locks where
  ref := by
    intro k
    rw [call.ref, same]
  lock := call.lock
  single := call.single

end Fs

/-! ## Open files -/

/-- An open file is an end of the pipe in a frame. -/
def OpenFile.End (file : OpenFile) (b : Nat) (writable : Bool) : Prop :=
  0 < file.ref ∧ file.type = .pipe ∧ file.pipe = b ∧ file.writable = writable

/-- What an open file counts for as a reference to an inode. -/
def OpenFile.uses (k : Fin nInode) (file : OpenFile) : Nat :=
  if 0 < file.ref ∧ file.type = .inode ∧ file.ip = k then 1 else 0

/-- Whether a pipe is there and an end of it is open. -/
def openEnd (pipe : Option Pipe) (writable : Bool) : Bool :=
  match pipe with
  | none => false
  | some pipe => if writable then pipe.writeopen else pipe.readopen

theorem openEnd_close (pipe : Pipe) (writable w : Bool) :
    openEnd (pipe.close writable) w = (openEnd (some pipe) w && w != writable) := by
  obtain ⟨readopen, writeopen⟩ := pipe
  revert readopen writeopen writable w
  decide

theorem Pipe.close_eq_some {pipe left : Pipe} {writable : Bool}
    (closed : pipe.close writable = some left) : left.readopen = true ∨ left.writeopen = true := by
  obtain ⟨readopen, writeopen⟩ := pipe
  obtain ⟨readLeft, writeLeft⟩ := left
  revert readopen writeopen readLeft writeLeft writable
  decide

variable {n : Nat}

namespace FileTables

variable {t t' : FileTables} {slots : Fin nFile → Nat} {f : Fin nFile} {file : OpenFile}

/-- The open files that use a cached inode. -/
def openInodes (t : FileTables) (k : Fin nInode) : Nat := tally (OpenFile.uses k) t.file

/-- Open files are referenced as often as counted, and pipes have the ends that are open. -/
structure Counted (slots : Fin nFile → Nat) (t : FileTables) : Prop where
  ref : ∀ f, (t.file f).ref = slots f
  free : ∀ f, (t.file f).ref = 0 → (t.file f).type = .none
  ends : ∀ b writable, openEnd (t.pipes b) writable = true ↔ ∃ f, (t.file f).End b writable
  single : ∀ b writable f g, (t.file f).End b writable → (t.file g).End b writable → f = g
  kept : ∀ b pipe, t.pipes b = some pipe → pipe.readopen = true ∨ pipe.writeopen = true

/-- A pipe is there exactly when one of its ends is referenced. -/
theorem Counted.pipe_iff (counted : t.Counted slots) (b : Nat) :
    (t.pipes b).isSome ↔ ∃ f, 0 < (t.file f).ref ∧ (t.file f).type = .pipe ∧ (t.file f).pipe = b := by
  constructor
  · intro there
    obtain ⟨pipe, found⟩ := Option.isSome_iff_exists.mp there
    have opening : ∃ writable, openEnd (t.pipes b) writable = true := by
      rcases counted.kept b pipe found with reading | writing
      · exact ⟨false, by simp [openEnd, found, reading]⟩
      · exact ⟨true, by simp [openEnd, found, writing]⟩
    obtain ⟨writable, isOpen⟩ := opening
    obtain ⟨f, referenced, type, frame, _⟩ := (counted.ends b writable).mp isOpen
    exact ⟨f, referenced, type, frame⟩
  · rintro ⟨f, referenced, type, frame⟩
    have isOpen := (counted.ends b (t.file f).writable).mpr ⟨f, referenced, type, frame, rfl⟩
    cases found : t.pipes b with
    | none => simp [openEnd, found] at isOpen
    | some pipe => rfl

theorem openInodes_set (t : FileTables) (f : Fin nFile) (file : OpenFile) (k : Fin nInode) :
    (t.set f file).openInodes k + (t.file f).uses k = t.openInodes k + file.uses k :=
  tally_update (OpenFile.uses k) t.file f file

theorem forall_set {P : Fin nFile → OpenFile → Prop} (here : P f file)
    (others : ∀ g, g ≠ f → P g (t.file g)) : ∀ g, P g ((t.set f file).file g) :=
  (forall_update_iff t.file P).mpr ⟨here, others⟩

theorem Counted.set_refs (counted : t.Counted slots) (ref : file.ref = n)
    (free : file.ref = 0 → file.type = .none) :
    (∀ g, ((t.set f file).file g).ref = update slots f n g) ∧
      ∀ g, ((t.set f file).file g).ref = 0 → ((t.set f file).file g).type = .none := by
  constructor
  · apply forall_set (P := fun g x => x.ref = update slots f n g)
    · rw [ref, update_self]
    · intro g other
      rw [counted.ref, update_of_ne other]
  · exact forall_set (P := fun _ x => x.ref = 0 → x.type = .none) free fun g _ => counted.free g

/-- A file may be replaced by one that is the same end of the same pipe, or none. -/
theorem Counted.set (counted : t.Counted slots) (ref : file.ref = n)
    (free : file.ref = 0 → file.type = .none)
    (same : ∀ b writable, file.End b writable ↔ (t.file f).End b writable) :
    (t.set f file).Counted (update slots f n) := by
  have ends : ∀ g b writable, ((t.set f file).file g).End b writable ↔
      (t.file g).End b writable :=
    forall_set (P := fun g x => ∀ b w, x.End b w ↔ (t.file g).End b w) same
      fun _ _ _ _ => Iff.rfl
  obtain ⟨refs, frees⟩ := counted.set_refs (f := f) ref free
  refine ⟨refs, frees, ?_, ?_, counted.kept⟩
  · intro b writable
    simp only [ends]
    exact counted.ends b writable
  · intro b writable g h
    rw [ends, ends]
    exact counted.single b writable g h

theorem filealloc_eq_some (found : t.filealloc = some (f, t')) :
    (t.file f).ref = 0 ∧ t' = t.set f { t.file f with ref := 1 } := by
  unfold filealloc at found
  split at found
  case h_1 g first =>
    have empty := List.find?_some first
    cases found
    exact ⟨by simpa using empty, rfl⟩
  case h_2 => cases found

/-- `pipeclose` for an end whose file has just been given up. -/
theorem Counted.pipeclose (counted : t.Counted slots) {b : Nat} {writable : Bool}
    (closing : (t.file f).End b writable) (gone : file.ref = 0) (type : file.type = .none) :
    Yields (fun t' => t'.Counted (update slots f 0) ∧ t'.fs = t.fs ∧
        t'.file = (t.set f file).file) (fun _ => True)
      ((t.set f file).pipeclose b writable) := by
  have isOpen := (counted.ends b writable).mpr ⟨f, closing⟩
  obtain ⟨refs, frees⟩ := counted.set_refs (f := f) gone fun _ => type
  have is : ∀ g c w, ((t.set f file).file g).End c w ↔ g ≠ f ∧ (t.file g).End c w := by
    apply forall_set (P := fun g x => ∀ c w, x.End c w ↔ g ≠ f ∧ (t.file g).End c w)
    · simp [OpenFile.End, gone]
    · intro g other c w
      simp [other]
  -- The other files are the ends that they were, and this end has no other file.
  have ends : ∀ c w, (∃ g, ((t.set f file).file g).End c w) ↔
      (c, w) ≠ (b, writable) ∧ ∃ g, (t.file g).End c w := by
    intro c w
    simp only [is]
    constructor
    · rintro ⟨g, other, isEnd⟩
      refine ⟨?_, g, isEnd⟩
      intro same
      cases same
      exact other (counted.single b writable g f isEnd closing)
    · rintro ⟨other, g, isEnd⟩
      refine ⟨g, ?_, isEnd⟩
      rintro rfl
      apply other
      rw [← isEnd.2.2.1, ← isEnd.2.2.2, closing.2.2.1, closing.2.2.2]
  cases found : t.pipes b with
  | none => simp [openEnd, found] at isOpen
  | some pipe =>
    have there : (t.set f file).pipes b = some pipe := found
    simp only [FileTables.pipeclose, there]
    refine ⟨⟨refs, frees, ?_, ?_, ?_⟩, rfl, rfl⟩
    · intro c w
      apply Iff.trans _ (ends c w).symm
      rw [← counted.ends c w]
      by_cases here : c = b
      · subst here
        simp only [update_self, openEnd_close, found]
        simp [and_comm]
      · simp only [update_of_ne here]
        simp [FileTables.set, here]
    · intro c w g h first second
      exact counted.single c w g h ((is g c w).mp first).2 ((is h c w).mp second).2
    · intro c left
      by_cases here : c = b
      · subst here
        simp only [update_self]
        exact Pipe.close_eq_some
      · simp only [update_of_ne here]
        exact counted.kept c left

theorem openInodes_set_same (same : ∀ k, file.uses k = (t.file f).uses k) :
    (t.set f file).openInodes = t.openInodes := by
  funext k
  have changed := openInodes_set t f file k
  rw [same k] at changed
  omega

/-- The open files and inodes are referenced as often as counted, within a call that holds some
references to inodes and locks. -/
structure Holds (slots : Fin nFile → Nat) (cwds : Fin nInode → Nat)
    (refs locks : List (Fin nInode)) (t : FileTables) : Prop where
  /-- Open files and pipes. -/
  counted : t.Counted slots
  /-- Inodes. -/
  fs : t.fs.Call (fun k => cwds k + t.openInodes k) refs locks

variable {cwds cwds' : Fin nInode → Nat} {refs refs' locks locks' : List (Fin nInode)}
  {slots' : Fin nFile → Nat}

theorem Holds.rebase (holds : t.Holds slots cwds refs locks) (files : ∀ f, slots' f = slots f)
    (inodes : ∀ k, cwds' k + refs'.count k = cwds k + refs.count k) :
    t.Holds slots' cwds' refs' locks where
  counted := by
    obtain rfl : slots' = slots := funext files
    exact holds.counted
  fs := by
    apply holds.fs.rebase
    intro k
    have same := inodes k
    omega

/-- Replacing an open file keeps the counts when it is the same end and uses the same inode. -/
theorem Holds.set (holds : t.Holds slots cwds refs locks) (ref : file.ref = n)
    (free : file.ref = 0 → file.type = .none)
    (ends : ∀ b writable, file.End b writable ↔ (t.file f).End b writable)
    (uses : ∀ k, file.uses k = (t.file f).uses k) :
    (t.set f file).Holds (update slots f n) cwds refs locks where
  counted := holds.counted.set ref free ends
  fs := by
    rw [openInodes_set_same uses]
    exact holds.fs

theorem Holds.changeRef (holds : t.Holds slots cwds refs locks) (open_ : 0 < (t.file f).ref)
    (still : 0 < n) :
    (t.set f { t.file f with ref := n }).Holds (update slots f n) cwds refs locks := by
  have positive : (0 : Int) < n := by exact_mod_cast still
  apply holds.set
  · rfl
  · intro none
    have zero : (n : Int) = 0 := none
    omega
  · intro b writable
    simp [OpenFile.End, open_, still]
  · intro k
    simp [OpenFile.uses, open_, still]

theorem Holds.filedup (holds : t.Holds slots cwds refs locks) (f : Fin nFile) :
    Yields (fun t' => t'.Holds (update slots f (slots f + 1)) cwds refs locks)
      (fun _ => True) (t.filedup f) := by
  unfold FileTables.filedup
  split
  case isTrue => trivial
  case isFalse positive =>
    have counted := holds.counted.ref f
    have changed := holds.changeRef (f := f) (n := slots f + 1) (by omega) (by omega)
    rw [counted]
    exact_mod_cast changed

/-- `fileclose` drops a reference, and what the file refers to with the last one. -/
theorem Holds.fileclose (holds : t.Holds slots cwds refs locks) (f : Fin nFile) :
    Yields (fun t' => t'.Holds (update slots f (slots f - 1)) cwds refs locks)
      (fun _ => True) (t.fileclose f) := by
  have counted := holds.counted.ref f
  simp only [FileTables.fileclose]
  split
  case isTrue => trivial
  case isFalse positive =>
    split
    case isTrue more =>
      have changed := holds.changeRef (f := f) (n := slots f - 1) (by omega) (by omega)
      have count : (t.file f).ref - 1 = (slots f - 1 : Nat) := by omega
      rw [count]
      exact changed
    case isFalse last =>
      have one : slots f - 1 = 0 := by omega
      have referenced : 0 < (t.file f).ref := by omega
      rw [one]
      have closed : ∀ k, OpenFile.uses k { t.file f with ref := 0, type := .none } = 0 := by
        intro k
        simp [OpenFile.uses]
      split
      case h_1 type =>
        have closing : (t.file f).End (t.file f).pipe (t.file f).writable :=
          ⟨referenced, type, rfl, rfl⟩
        apply (holds.counted.pipeclose closing rfl rfl).mono
        rintro t' ⟨after, fs, file⟩
        have same : t'.openInodes = t.openInodes := by
          have unused : ∀ k, (t.file f).uses k = 0 := by
            intro k
            simp [OpenFile.uses, type]
          have moved : t'.openInodes =
              (t.set f { t.file f with ref := 0, type := .none }).openInodes := by
            funext k
            simp only [openInodes, file]
          rw [moved, openInodes_set_same fun k => (closed k).trans (unused k).symm]
        refine ⟨after, ?_⟩
        rw [fs, same]
        exact holds.fs
      case h_2 type =>
        have unreferenced : ({ t.file f with ref := 0, type := .none } : OpenFile).ref = 0 := rfl
        have set := holds.counted.set (f := f) unreferenced (fun _ => rfl)
          (by simp [OpenFile.End, type])
        -- The reference of the file becomes one of the call, which `iput` drops.
        have call : t.fs.Call (fun k => cwds k +
            (t.set f { t.file f with ref := 0, type := .none }).openInodes k)
            ((t.file f).ip :: refs) locks := by
          apply holds.fs.rebase
          intro k
          have changed := openInodes_set t f { t.file f with ref := 0, type := .none } k
          rw [closed k] at changed
          have count : ((t.file f).ip :: refs).count k = refs.count k + (t.file f).uses k := by
            simp [OpenFile.uses, referenced, type, List.count_cons]
          omega
        apply call.iput.bind
        rintro fs ⟨dropped, _, _⟩
        exact ⟨⟨set.ref, set.free, set.ends, set.single, set.kept⟩, dropped⟩
      case h_3 type =>
        apply holds.set
        · rfl
        · intro _
          rfl
        · simp [OpenFile.End, type]
        · intro k
          rw [closed k]
          simp [OpenFile.uses, type]

theorem Holds.filealloc (holds : t.Holds slots cwds refs locks)
    (found : t.filealloc = some (f, t')) :
    t'.Holds (update slots f (slots f + 1)) cwds refs locks ∧
      (t'.file f).ref = 1 ∧ (t'.file f).type = .none ∧ t'.fs = t.fs := by
  obtain ⟨empty, rfl⟩ := filealloc_eq_some found
  have type := holds.counted.free f empty
  have none : slots f = 0 := by
    have counted := holds.counted.ref f
    omega
  refine ⟨?_, by simp [FileTables.set], by simpa [FileTables.set] using type, rfl⟩
  apply holds.set
  · simp [none]
  · intro _
    exact type
  · simp [OpenFile.End, type]
  · simp [OpenFile.uses, type]

variable {b : Nat} {f0 f1 : Fin nFile}

theorem connect_file (apart : f0 ≠ f1) (g : Fin nFile) :
    (t.connect b f0 f1).file g =
      if g = f0 then { t.file f0 with type := .pipe, writable := false, pipe := b }
      else if g = f1 then { t.file f1 with type := .pipe, writable := true, pipe := b }
      else t.file g := by
  split_ifs with atFirst atSecond
  · simp [connect, FileTables.set, atFirst, apart]
  · simp [connect, FileTables.set, atSecond, apart.symm]
  · simp [connect, FileTables.set, atFirst, atSecond]

/-- The new pipe has its two ends, and the other pipes have theirs. -/
theorem Holds.connect (holds : t.Holds slots cwds refs locks) (unused : t.pipes b = none)
    (apart : f0 ≠ f1) (first : (t.file f0).ref = 1 ∧ (t.file f0).type = .none)
    (second : (t.file f1).ref = 1 ∧ (t.file f1).type = .none) :
    (t.connect b f0 f1).Holds slots cwds refs locks := by
  have none : ∀ g w, ¬ (t.file g).End b w := by
    intro g w is
    have isOpen := (holds.counted.ends b w).mpr ⟨g, is⟩
    simp [openEnd, unused] at isOpen
  have ends : ∀ g c w, ((t.connect b f0 f1).file g).End c w ↔
      if c = b then g = if w then f1 else f0 else (t.file g).End c w := by
    intro g c w
    rw [connect_file apart]
    by_cases here : c = b
    · subst here
      rw [if_pos rfl]
      by_cases atFirst : g = f0
      · cases w <;> simp [OpenFile.End, atFirst, first.1, apart]
      · by_cases atSecond : g = f1
        · cases w <;> simp [OpenFile.End, atSecond, second.1, apart.symm]
        · cases w <;> simp [atFirst, atSecond, none g]
    · rw [if_neg here]
      split_ifs with atFirst atSecond
      · simp [OpenFile.End, atFirst, first.2, Ne.symm here]
      · simp [OpenFile.End, atSecond, second.2, Ne.symm here]
      · rfl
  have refs : ∀ g, ((t.connect b f0 f1).file g).ref = (t.file g).ref := by
    intro g
    rw [connect_file apart]
    split_ifs with atFirst atSecond
    · rw [atFirst]
    · rw [atSecond]
    · rfl
  have pipes : ∀ c, (t.connect b f0 f1).pipes c =
      if c = b then some ⟨true, true⟩ else t.pipes c := by
    intro c
    by_cases here : c = b <;> simp [FileTables.connect, FileTables.set, here]
  refine ⟨⟨?_, ?_, ?_, ?_, ?_⟩, ?_⟩
  · intro g
    rw [refs]
    exact holds.counted.ref g
  · intro g empty
    rw [refs] at empty
    have notFirst : g ≠ f0 := by
      intro same
      rw [same, first.1] at empty
      cases empty
    have notSecond : g ≠ f1 := by
      intro same
      rw [same, second.1] at empty
      cases empty
    rw [connect_file apart, if_neg notFirst, if_neg notSecond]
    exact holds.counted.free g empty
  · intro c w
    rw [pipes]
    by_cases here : c = b
    · cases w <;> simp [ends, here, openEnd]
    · simp only [ends, if_neg here]
      exact holds.counted.ends c w
  · intro c w g h
    rw [ends, ends]
    by_cases here : c = b
    · rw [if_pos here, if_pos here]
      intro atG atH
      rw [atG, atH]
    · rw [if_neg here, if_neg here]
      exact holds.counted.single c w g h
  · intro c pipe
    rw [pipes]
    by_cases here : c = b
    · rw [if_pos here]
      intro same
      cases same
      exact .inl rfl
    · rw [if_neg here]
      exact holds.counted.kept c pipe
  · have same : (t.connect b f0 f1).openInodes = t.openInodes := by
      funext k
      apply tally_congr
      intro g
      rw [connect_file apart]
      split_ifs with atFirst atSecond
      · simp [OpenFile.uses, atFirst, first.2]
      · simp [OpenFile.uses, atSecond, second.2]
      · rfl
    rw [same]
    exact holds.fs

end FileTables

/-! ## Processes -/

/-- What a process counts for as references to an open file. -/
def FileProc.uses (f : Fin nFile) (proc : FileProc) : Nat :=
  tally (fun slot : Option (Fin nFile) => if slot = some f then 1 else 0) proc.ofile

/-- What a process counts for as a reference to an inode. -/
def FileProc.stays (k : Fin nInode) (proc : FileProc) : Nat := if proc.cwd = some k then 1 else 0

namespace Files

variable {s : Files} {p np : Fin nproc} {fd : Fin nOfile} {f : Fin nFile} {k : Fin nInode}

/-- The descriptors for an open file, over all processes. -/
def slots (s : Files) (f : Fin nFile) : Nat := tally (FileProc.uses f) s.proc

/-- The processes whose current directory is a cached inode. -/
def cwds (s : Files) (k : Fin nInode) : Nat := tally (FileProc.stays k) s.proc

/-- Writing a descriptor changes the count of the file that it was for and of the new one. -/
theorem slots_setFile (s : Files) (p : Fin nproc) (fd : Fin nOfile) (value : Option (Fin nFile))
    (f : Fin nFile) :
    (s.setFile p fd value).slots f + (if (s.proc p).ofile fd = some f then 1 else 0) =
      s.slots f + (if value = some f then 1 else 0) := by
  have outer := tally_update (FileProc.uses f) s.proc p
    { s.proc p with ofile := update (s.proc p).ofile fd value }
  have inner := tally_update (fun slot : Option (Fin nFile) => if slot = some f then 1 else 0)
    (s.proc p).ofile fd value
  simp only [FileProc.uses] at outer
  simp only [slots, setFile, setProc]
  omega

theorem cwds_setFile (s : Files) (p : Fin nproc) (fd : Fin nOfile) (value : Option (Fin nFile)) :
    (s.setFile p fd value).cwds = s.cwds := by
  funext k
  have changed := tally_update (FileProc.stays k) s.proc p
    { s.proc p with ofile := update (s.proc p).ofile fd value }
  simp only [FileProc.stays] at changed
  simp only [cwds, setFile, setProc]
  omega

theorem slots_setCwd (s : Files) (p : Fin nproc) (cwd : Option (Fin nInode)) (state : ProcState) :
    (s.setProc p { s.proc p with cwd, state }).slots = s.slots := by
  funext f
  have changed := tally_update (FileProc.uses f) s.proc p { s.proc p with cwd, state }
  simp only [FileProc.uses] at changed
  simp only [slots, setProc]
  omega

theorem cwds_setCwd (s : Files) (p : Fin nproc) (cwd : Option (Fin nInode)) (state : ProcState)
    (k : Fin nInode) :
    (s.setProc p { s.proc p with cwd, state }).cwds k +
        (if (s.proc p).cwd = some k then 1 else 0) =
      s.cwds k + (if cwd = some k then 1 else 0) :=
  tally_update (FileProc.stays k) s.proc p { s.proc p with cwd, state }

/-- The references are counted, within a call that holds some of them. -/
def During (files : List (Fin nFile)) (refs locks : List (Fin nInode)) (s : Files) : Prop :=
  s.tables.Holds (fun f => s.slots f + files.count f) s.cwds refs locks

variable {files : List (Fin nFile)} {refs refs' locks locks' : List (Fin nInode)}
  {t : FileTables} {fs : Fs}

/-- The base of what others hold. -/
abbrev others (s : Files) (k : Fin nInode) : Nat := s.cwds k + s.tables.openInodes k

theorem During.setFs (during : s.During files refs locks)
    (call : fs.Call s.others refs' locks') : (s.setFs fs).During files refs' locks' :=
  ⟨⟨during.counted.ref, during.counted.free, during.counted.ends, during.counted.single,
    during.counted.kept⟩, call⟩

theorem count_update (slots : Fin nFile → Nat) (files : List (Fin nFile)) (f g : Fin nFile) :
    slots g + (f :: files).count g =
      update (fun h => slots h + files.count h) f (slots f + files.count f + 1) g := by
  by_cases here : g = f
  · subst here
    simp
    omega
  · simp [here, Ne.symm here]

theorem During.filealloc (during : s.During files refs locks)
    (found : s.tables.filealloc = some (f, t)) :
    ({ s with tables := t } : Files).During (f :: files) refs locks ∧ (t.file f).ref = 1 ∧
      (t.file f).type = .none ∧ t.fs = s.tables.fs := by
  obtain ⟨holds, one, type, fs⟩ := FileTables.Holds.filealloc during found
  refine ⟨holds.rebase ?_ fun _ => rfl, one, type, fs⟩
  intro g
  exact count_update s.slots files f g

theorem During.filedup (during : s.During files refs locks) (f : Fin nFile) :
    Yields (fun t => ({ s with tables := t } : Files).During (f :: files) refs locks)
      (fun _ => True) (s.tables.filedup f) := by
  apply (FileTables.Holds.filedup during f).mono
  intro t holds
  apply holds.rebase _ fun _ => rfl
  intro g
  exact count_update s.slots files f g

theorem During.fileclose (during : s.During (f :: files) refs locks) :
    Yields (fun t => ({ s with tables := t } : Files).During files refs locks)
      (fun _ => True) (s.tables.fileclose f) := by
  apply (FileTables.Holds.fileclose during f).mono
  intro t holds
  apply holds.rebase _ fun _ => rfl
  intro g
  show s.slots g + files.count g = _
  by_cases here : g = f
  · subst here
    simp
  · simp [here, Ne.symm here]

theorem count_toList {n : Nat} (value : Option (Fin n)) (held : List (Fin n)) (b : Fin n) :
    (value.toList ++ held).count b = held.count b + if value = some b then 1 else 0 := by
  cases value <;> simp [List.count_cons]

/-- The call gives a reference to a slot of the process, and has the one that was there. -/
theorem During.setFile (files : List (Fin nFile)) (value : Option (Fin nFile))
    (during : s.During (value.toList ++ files) refs locks) {old : Option (Fin nFile)}
    (was : (s.proc p).ofile fd = old) :
    (s.setFile p fd value).During (old.toList ++ files) refs locks := by
  apply FileTables.Holds.rebase during
  · intro g
    have changed := slots_setFile s p fd value g
    rw [was] at changed
    rw [count_toList, count_toList]
    omega
  · intro k
    rw [cwds_setFile]

theorem During.setCwd (refs : List (Fin nInode)) (cwd : Option (Fin nInode))
    (during : s.During files (cwd.toList ++ refs) locks) {old : Option (Fin nInode)}
    (was : (s.proc p).cwd = old) (state : ProcState) :
    (s.setProc p { s.proc p with cwd, state }).During files (old.toList ++ refs) locks := by
  apply FileTables.Holds.rebase during
  · intro g
    rw [slots_setCwd]
  · intro l
    have changed := cwds_setCwd s p cwd state l
    rw [was] at changed
    rw [count_toList, count_toList]
    omega

/-! ## Calls -/

/-- `pipealloc` leaves the call with a reference to each end. -/
theorem During.pipealloc (during : s.During files refs locks) {page : Option Nat}
    (fresh : ∀ b ∈ page, s.tables.pipes b = none) :
    Yields (fun r => ({ s with tables := r.2 } : Files).During
        ((r.1.elim [] fun ends => [ends.1, ends.2]) ++ files) refs locks)
      (fun _ => True) (s.tables.pipealloc page) := by
  unfold FileTables.pipealloc
  split
  case h_1 => exact during
  case h_2 f0 t₀ found =>
    obtain ⟨first, oneFirst, typeFirst, _⟩ := during.filealloc found
    have kept : t₀.pipes = s.tables.pipes := by
      obtain ⟨_, rfl⟩ := FileTables.filealloc_eq_some found
      rfl
    split
    case h_1 =>
      apply first.fileclose.bind
      intro t closed
      exact closed
    case h_2 f1 t₁ foundNext =>
      obtain ⟨second, oneSecond, typeSecond, _⟩ := first.filealloc foundNext
      obtain ⟨empty, rfl⟩ := FileTables.filealloc_eq_some foundNext
      have apart : f0 ≠ f1 := by
        intro same
        rw [← same, oneFirst] at empty
        cases empty
      cases page with
      | none =>
        have swapped : ({ s with tables := t₀.set f1 { t₀.file f1 with ref := 1 } } : Files).During
            (f0 :: f1 :: files) refs locks := by
          apply FileTables.Holds.rebase second _ fun _ => rfl
          intro g
          rw [(List.Perm.swap f1 f0 files).count_eq]
        apply swapped.fileclose.bind
        intro t₂ closed
        apply closed.fileclose.bind
        intro t₃ closedBoth
        exact closedBoth
      | some b =>
        have unused : (t₀.set f1 { t₀.file f1 with ref := 1 }).pipes b = none := by
          rw [FileTables.set, kept]
          exact fresh b rfl
        have firstFile : (t₀.set f1 { t₀.file f1 with ref := 1 }).file f0 = t₀.file f0 := by
          simp [FileTables.set, apart]
        have connected := FileTables.Holds.connect second unused apart
          (by rw [firstFile]; exact ⟨oneFirst, typeFirst⟩) ⟨oneSecond, typeSecond⟩
        apply FileTables.Holds.rebase connected _ fun _ => rfl
        intro g
        show s.slots g + (f0 :: f1 :: files).count g = s.slots g + (f1 :: f0 :: files).count g
        rw [(List.Perm.swap f1 f0 files).count_eq]

/-- The references are exact between calls, processes that cannot make calls have none, and the
others have a current directory. -/
structure Exact (s : Files) : Prop where
  during : s.During [] [] []
  idle : ∀ p, (s.proc p).state.alive = false →
    (∀ fd, (s.proc p).ofile fd = none) ∧ (s.proc p).cwd = none
  placed : ∀ p, (s.proc p).state.alive = true → (s.proc p).cwd ≠ none

theorem cwds_pos (used : (s.proc p).cwd = some k) : 0 < s.cwds k := by
  have counts := le_tally (FileProc.stays k) s.proc p
  have one : FileProc.stays k (s.proc p) = 1 := by simp [FileProc.stays, used]
  rw [one] at counts
  exact counts

theorem Exact.cwd (exact : s.Exact) (alive : (s.proc p).state.alive = true) :
    ∃ k, s.cwd p = .ok k ∧ (s.proc p).cwd = some k ∧ 0 < s.others k := by
  cases used : (s.proc p).cwd with
  | none => exact absurd used (exact.placed p alive)
  | some k =>
    refine ⟨k, by rw [Files.cwd, used]; rfl, rfl, ?_⟩
    have positive := cwds_pos used
    show 0 < s.cwds k + _
    omega

theorem Exact.setFs (exact : s.Exact) (call : fs.Call s.others [] []) : (s.setFs fs).Exact :=
  ⟨exact.during.setFs call, exact.idle, exact.placed⟩

/-- A call changes one process, which may be dead after it. -/
theorem Exact.replace {s' : Files} (exact : s.Exact) (p : Fin nproc)
    (others : ∀ q, q ≠ p → s'.proc q = s.proc q) (during : s'.During [] [] [])
    (idle : (s'.proc p).state.alive = false →
      (∀ fd, (s'.proc p).ofile fd = none) ∧ (s'.proc p).cwd = none)
    (placed : (s'.proc p).state.alive = true → (s'.proc p).cwd ≠ none) : s'.Exact where
  during := during
  idle := by
    intro q
    by_cases here : q = p
    · exact here ▸ idle
    · rw [others q here]
      exact exact.idle q
  placed := by
    intro q
    by_cases here : q = p
    · exact here ▸ placed
    · rw [others q here]
      exact exact.placed q

/-- Only descriptors of a process may differ. -/
structure Redirects (p : Fin nproc) (procs procs' : Fin nproc → FileProc) : Prop where
  others : ∀ q, q ≠ p → procs' q = procs q
  state : (procs' p).state = (procs p).state
  cwd : (procs' p).cwd = (procs p).cwd

variable {procs procs' procs'' : Fin nproc → FileProc}

theorem Redirects.refl (p : Fin nproc) (procs : Fin nproc → FileProc) : Redirects p procs procs :=
  ⟨fun _ _ => rfl, rfl, rfl⟩

theorem Redirects.trans (one : Redirects p procs procs') (two : Redirects p procs' procs'') :
    Redirects p procs procs'' :=
  ⟨fun q other => (two.others q other).trans (one.others q other), two.state.trans one.state,
    two.cwd.trans one.cwd⟩

theorem Redirects.write (same : Redirects p procs procs') (value : Option (Fin nFile)) :
    Redirects p procs
      (update procs' p { procs' p with ofile := update (procs' p).ofile fd value }) where
  others q other := (update_of_ne other ..).trans (same.others q other)
  state := by simpa using same.state
  cwd := by simpa using same.cwd

theorem Exact.descriptors {s' : Files} (exact : s.Exact) (alive : (s.proc p).state.alive = true)
    (same : Redirects p s.proc s'.proc) (during : s'.During [] [] []) : s'.Exact := by
  refine exact.replace p same.others during ?_ fun _ => ?_
  · rw [same.state, alive]
    nofun
  · rw [same.cwd]
    exact exact.placed p alive

theorem Exact.setFile {t : FileTables} (exact : s.Exact) (alive : (s.proc p).state.alive = true)
    (value : Option (Fin nFile))
    (during : ({ s with tables := t }.setFile p fd value).During [] [] []) :
    ({ s with tables := t }.setFile p fd value).Exact :=
  exact.descriptors alive ((Redirects.refl p s.proc).write value) during

theorem Exact.setTables (exact : s.Exact)
    (during : ({ s with tables := t } : Files).During [] [] []) :
    ({ s with tables := t } : Files).Exact := ⟨during, exact.idle, exact.placed⟩

theorem argfd_eq_some {n : Int} (found : s.argfd p n = some (fd, f)) :
    (s.proc p).ofile fd = some f := by
  unfold argfd at found
  split at found
  case isTrue inside =>
    obtain ⟨g, used, same⟩ := Option.map_eq_some_iff.mp found
    cases same
    exact used
  case isFalse => cases found

theorem fdalloc_eq_some {s' : Files} (found : s.fdalloc p f = some (fd, s')) :
    (s.proc p).ofile fd = none ∧ s' = s.setFile p fd (some f) := by
  unfold fdalloc at found
  split at found
  case h_1 fd empty =>
    cases found
    have free := List.find?_some empty
    exact ⟨by simpa using free, rfl⟩
  case h_2 => cases found

theorem Exact.sysDup (exact : s.Exact) (alive : (s.proc p).state.alive = true) (n : Int) :
    Yields (fun r => r.2.Exact) (fun _ => True) (s.sysDup p n) := by
  unfold Files.sysDup
  split
  case h_1 => exact exact
  case h_2 f _ =>
    split
    case h_1 => exact exact
    case h_2 new s₁ found =>
      obtain ⟨empty, rfl⟩ := fdalloc_eq_some found
      -- The descriptor is written first; the counts agree again after `filedup`.
      apply (exact.during.filedup f).bind
      intro t dupped
      have installed := dupped.setFile [] (some f) empty
      exact exact.setFile alive (some f) installed

theorem Exact.sysClose (exact : s.Exact) (alive : (s.proc p).state.alive = true) (n : Int) :
    Yields (fun r => r.2.Exact) (fun _ => True) (s.sysClose p n) := by
  unfold Files.sysClose
  split
  case h_1 => exact exact
  case h_2 fd f found =>
    have cleared := exact.during.setFile [] none (argfd_eq_some found)
    apply cleared.fileclose.bind
    intro t closed
    exact exact.setFile alive none closed

theorem Exact.sysPipe (exact : s.Exact) (alive : (s.proc p).state.alive = true)
    {page : Option Nat} (fresh : ∀ b ∈ page, s.tables.pipes b = none) :
    Yields (fun r => r.2.Exact) (fun _ => True) (s.sysPipe p page) := by
  apply (exact.during.pipealloc fresh).bind
  rintro ⟨ends, t⟩ allocated
  cases ends with
  | none => exact exact.setTables allocated
  | some ends =>
    obtain ⟨rf, wf⟩ := ends
    dsimp only
    split
    case h_1 =>
      apply allocated.fileclose.bind
      intro t₁ closed
      apply closed.fileclose.bind
      intro t₂ closedBoth
      exact exact.setTables closedBoth
    case h_2 fd0 s₁ found =>
      obtain ⟨empty, rfl⟩ := fdalloc_eq_some found
      have first := allocated.setFile [wf] (some rf) empty
      split
      case h_1 =>
        have used : ((({ s with tables := t } : Files).setFile p fd0 (some rf)).proc p).ofile fd0 =
            some rf := by
          simp [Files.setFile, setProc]
        apply (first.setFile [wf] none used).fileclose.bind
        intro t₁ closed
        apply closed.fileclose.bind
        intro t₂ closedBoth
        exact exact.descriptors alive (((Redirects.refl p s.proc).write _).write _) closedBoth
      case h_2 fd1 s₂ foundNext =>
        obtain ⟨emptyNext, rfl⟩ := fdalloc_eq_some foundNext
        have both := first.setFile [] (some wf) emptyNext
        exact exact.descriptors alive (((Redirects.refl p s.proc).write _).write _) both

theorem Exact.sysLink (exact : s.Exact) (alive : (s.proc p).state.alive = true)
    (old new : List Byte) :
    Yields (fun r => r.2.Exact) (fun _ => True) (s.sysLink p old new) := by
  obtain ⟨k, found, _, held⟩ := exact.cwd alive
  rw [Files.sysLink, found]
  apply (exact.during.fs.counting.link Fs.counting_rules held old new).bind
  rintro ⟨r, fs⟩ linked
  exact exact.setFs linked.call

theorem Exact.sysUnlink (exact : s.Exact) (alive : (s.proc p).state.alive = true)
    (path : List Byte) :
    Yields (fun r => r.2.Exact) (fun _ => True) (s.sysUnlink p path) := by
  obtain ⟨k, found, _, held⟩ := exact.cwd alive
  rw [Files.sysUnlink, found]
  apply (exact.during.fs.counting.unlink Fs.counting_rules held path).bind
  rintro ⟨r, fs⟩ unlinked
  exact exact.setFs unlinked.call

theorem Exact.make (exact : s.Exact) (alive : (s.proc p).state.alive = true) (path : List Byte)
    (type : FileType) (major minor : BitVec 16) :
    Yields (fun r => r.2.Exact) (fun _ => True) (s.make p path type major minor) := by
  obtain ⟨k, found, _, held⟩ := exact.cwd alive
  rw [Files.make, found]
  apply (exact.during.fs.counting.create Fs.counting_rules held path type major minor).bind
  rintro ⟨made, fs⟩ ⟨created, once⟩
  cases made with
  | none => exact exact.setFs created.call
  | some ip =>
    apply (created.iunlockput Fs.counting_rules.toReads (once ip rfl)).bind
    intro fs₁ put
    exact exact.setFs put.call

theorem execReads_call {base : Fin nInode → Nat} {ip : Fin nInode} (held : ip ∈ locks)
    (reads : List (Word × Word)) {fs : Fs} (call : fs.Call base refs locks) :
    Yields (fun fs' => fs'.Call base refs locks) (fun _ => True) (execReads ip reads fs) := by
  induction reads generalizing fs with
  | nil => exact call
  | cons read rest ih =>
    apply (call.counting.readi Fs.counting_rules.toReads held read.1.toNat read.2.isLt).bind
    rintro ⟨bytes, fs₁⟩ done
    exact ih done.call

theorem Exact.sysExec (exact : s.Exact) (alive : (s.proc p).state.alive = true)
    (path : List Byte) (reads : List (Word × Word)) :
    Yields (fun r => r.2.Exact) (fun _ => True) (s.sysExec p path reads) := by
  obtain ⟨k, found, _, held⟩ := exact.cwd alive
  rw [Files.sysExec, found]
  apply (exact.during.fs.counting.namei Fs.counting_rules.toReads held path).bind
  rintro ⟨file, fs⟩ walked
  cases file with
  | none => exact exact.setFs walked.call
  | some ip =>
    apply (walked.ilock Fs.counting_rules.toReads ip).bind
    rintro fs₁ ⟨locked, once⟩
    apply (execReads_call (List.mem_cons_self ..) reads locked.call).bind
    intro fs₂ done
    apply (done.counting.iunlockput Fs.counting_rules.toReads once).bind
    intro fs₃ put
    exact exact.setFs put.call

/-- The first part of `open` leaves the call with a locked inode. -/
theorem openInode_call {base : Fin nInode → Nat} {cwd : Fin nInode} {fs : Fs}
    (call : fs.Call base refs locks) (held : 0 < base cwd) (path : List Byte) (omode : Word) :
    Yields (fun r => r.2.Call base (r.1.toList ++ refs) (r.1.toList ++ locks) ∧
        ∀ ip ∈ r.1, ip ∉ locks) (fun _ => True) (openInode fs cwd path omode) := by
  unfold openInode
  split
  case isTrue =>
    apply (call.counting.create Fs.counting_rules held path .file 0 0).mono
    intro r created
    exact ⟨created.1.call, created.2⟩
  case isFalse =>
    apply (call.counting.namei Fs.counting_rules.toReads held path).bind
    rintro ⟨found, fs₁⟩ walked
    cases found with
    | none => exact ⟨walked.call, by simp⟩
    | some ip =>
      apply (walked.ilock Fs.counting_rules.toReads ip).bind
      rintro fs₂ ⟨locked, once⟩
      split
      case isTrue =>
        apply (locked.iunlockput Fs.counting_rules.toReads once).bind
        intro fs₃ put
        exact ⟨put.call, by simp⟩
      case isFalse => exact ⟨locked.call, by simpa using once⟩

/-- A file of no type becomes one for an inode that the call has a reference to. -/
theorem During.setInode {ip : Fin nInode} (during : s.During files (ip :: refs) locks)
    (one : (s.tables.file f).ref = 1) (type : (s.tables.file f).type = .none) (writable : Bool) :
    ({ s with
      tables := s.tables.set f { s.tables.file f with type := .inode, ip, writable } } :
        Files).During files refs locks := by
  have ref : ({ s.tables.file f with type := .inode, ip, writable } : OpenFile).ref =
      s.slots f + files.count f := during.counted.ref f
  have counted := during.counted.set (f := f) ref (by simp [one]) (by simp [OpenFile.End, type])
  rw [update_eq_self_iff.mpr rfl] at counted
  refine ⟨counted, ?_⟩
  apply during.fs.rebase
  intro k
  have changed := FileTables.openInodes_set s.tables f
    { s.tables.file f with type := .inode, ip, writable } k
  have before : (s.tables.file f).uses k = 0 := by simp [OpenFile.uses, type]
  have count : (ip :: refs).count k = refs.count k +
      OpenFile.uses k { s.tables.file f with type := .inode, ip, writable } := by
    simp [OpenFile.uses, one, List.count_cons]
  show s.cwds k +
      (s.tables.set f { s.tables.file f with type := .inode, ip, writable }).openInodes k +
      refs.count k = s.cwds k + s.tables.openInodes k + (ip :: refs).count k
  omega

/-- The second part of `open` keeps the references exact. -/
theorem Exact.openFile {ip : Fin nInode} (exact : s.Exact)
    (alive : (s.proc p).state.alive = true) (call : fs.Call s.others [ip] [ip]) (omode : Word) :
    Yields (fun r => r.2.Exact) (fun _ => True) ((s.setFs fs).openFile p ip omode) := by
  have during := exact.during.setFs call
  unfold Files.openFile
  split
  case h_1 =>
    apply (call.counting.iunlockput Fs.counting_rules.toReads (by simp)).bind
    intro fs₁ put
    exact exact.setFs put.call
  case h_2 f t found =>
    obtain ⟨allocated, one, type, sameFs⟩ := during.filealloc found
    split
    case h_1 =>
      apply allocated.fileclose.bind
      intro t₁ closed
      apply (closed.fs.counting.iunlockput Fs.counting_rules.toReads (by simp)).bind
      intro fs₁ put
      exact exact.setTables ⟨⟨closed.counted.ref, closed.counted.free, closed.counted.ends,
        closed.counted.single, closed.counted.kept⟩, put.call⟩
    case h_2 fd s₁ foundFd =>
      obtain ⟨empty, rfl⟩ := fdalloc_eq_some foundFd
      have installed := allocated.setFile [] (some f) empty
      apply (installed.fs.counting.iunlock Fs.counting_rules.toReads (by simp)).bind
      intro fs₁ unlocked
      have released := installed.setFs unlocked.call
      exact exact.descriptors alive ((Redirects.refl p s.proc).write _) (released.setInode one type _)

theorem Exact.sysOpen (exact : s.Exact) (alive : (s.proc p).state.alive = true)
    (path : List Byte) (omode : Word) :
    Yields (fun r => r.2.Exact) (fun _ => True) (s.sysOpen p path omode) := by
  obtain ⟨k, found, _, held⟩ := exact.cwd alive
  rw [Files.sysOpen, found]
  apply (openInode_call exact.during.fs held path omode).bind
  rintro ⟨file, fs⟩ ⟨opened, _⟩
  cases file with
  | none => exact exact.setFs opened
  | some ip => exact exact.openFile alive opened omode

theorem Exact.sysChdir (exact : s.Exact) (alive : (s.proc p).state.alive = true)
    (path : List Byte) :
    Yields (fun r => r.2.Exact) (fun _ => True) (s.sysChdir p path) := by
  obtain ⟨k, found, used, held⟩ := exact.cwd alive
  rw [Files.sysChdir, found]
  apply (exact.during.fs.counting.namei Fs.counting_rules.toReads held path).bind
  rintro ⟨dir, fs⟩ walked
  cases dir with
  | none => exact exact.setFs walked.call
  | some ip =>
    apply (walked.ilock Fs.counting_rules.toReads ip).bind
    rintro fs₁ ⟨locked, once⟩
    split
    case isTrue =>
      apply (locked.iunlockput Fs.counting_rules.toReads once).bind
      intro fs₂ put
      exact exact.setFs put.call
    case isFalse =>
      apply (locked.iunlock Fs.counting_rules.toReads once).bind
      intro fs₂ unlocked
      -- The old directory is dropped as if it were no longer that of the process.
      have dropped := (exact.during.setFs unlocked.call).setCwd [ip] none used (s.proc p).state
      apply (dropped.fs.counting.iput Fs.counting_rules.toReads).bind
      intro fs₃ put
      have taken := (dropped.setFs put.call).setCwd (p := p) [] (some ip)
        (show _ = none by simp [Files.setFs, setProc]) (s.proc p).state
      refine exact.replace p (fun q apart => update_of_ne apart ..) ?_ ?_ ?_
      · simpa [Files.setFs, setProc] using taken
      · simp [setProc, alive]
      · simp [setProc]

/-- The loop of `fork` gives the new process a descriptor for each one of the old process. -/
theorem During.dupFiles {fds : List (Fin nOfile)} (once : fds.Nodup) {s : Files}
    (during : s.During files refs locks) (empty : ∀ fd ∈ fds, (s.proc np).ofile fd = none) :
    Yields (fun s' => s'.During files refs locks ∧ Redirects np s.proc s'.proc) (fun _ => True)
      (dupFiles p np fds s) := by
  induction fds generalizing s with
  | nil => exact ⟨during, .refl np s.proc⟩
  | cons fd rest ih =>
    obtain ⟨absent, others⟩ := List.nodup_cons.mp once
    simp only [Files.dupFiles]
    split
    case h_1 => exact ih others during fun later member => empty later (by simp [member])
    case h_2 f used =>
      apply (during.filedup f).bind
      intro t dupped
      have installed := dupped.setFile files (some f) (empty fd (by simp))
      have rests : ∀ later ∈ rest,
          ((({ s with tables := t } : Files).setFile np fd (some f)).proc np).ofile later = none := by
        intro later member
        have different : later ≠ fd := by
          intro same
          exact absent (same ▸ member)
        simp [Files.setFile, setProc, different, empty later (by simp [member])]
      apply (ih others installed rests).mono
      rintro s' ⟨done, same⟩
      exact ⟨done, ((Redirects.refl np s.proc).write (some f)).trans same⟩

theorem Exact.fork (exact : s.Exact) (alive : (s.proc p).state.alive = true) (copied : Bool) :
    Yields (fun r => r.2.Exact) (fun _ => True) (s.fork p copied) := by
  unfold Files.fork
  split
  case h_1 => exact exact
  case h_2 np found =>
    split
    case isTrue => exact exact
    case isFalse =>
      have unused : (s.proc np).state = .unused := by
        have free := List.find?_some found
        simpa using free
      have apart : p ≠ np := by
        intro same
        rw [same, unused] at alive
        cases alive
      obtain ⟨noFiles, noCwd⟩ := exact.idle np (by rw [unused]; rfl)
      apply (exact.during.dupFiles (List.nodup_finRange nOfile) fun fd _ => noFiles fd).bind
      rintro s₁ ⟨dupped, procs, _, cwd⟩
      obtain ⟨k, _, used, _⟩ := exact.cwd alive
      have usedStill : (s₁.proc p).cwd = some k := by rw [procs p apart, used]
      have foundCwd : s₁.cwd p = .ok k := by rw [Files.cwd, usedStill]; rfl
      rw [foundCwd]
      have positive : 0 < (s₁.tables.fs.icache k).ref := by
        apply dupped.fs.referenced
        have counts := cwds_pos usedStill
        omega
      have added := dupped.setFs (dupped.fs.addRef positive).1
      have taken := added.setCwd (p := np) [] (some k) (cwd.trans noCwd) .runnable
      refine exact.replace np (fun q apart => ?_) taken ?_ ?_
      · exact (update_of_ne apart ..).trans (procs q apart)
      · simp [setProc, ProcState.alive]
      · simp [setProc]

theorem During.closeFiles (fds : List (Fin nOfile)) {s : Files} (during : s.During files refs locks) :
    Yields (fun s' => s'.During files refs locks ∧ Redirects p s.proc s'.proc ∧
        ∀ fd, fd ∈ fds ∨ (s.proc p).ofile fd = none → (s'.proc p).ofile fd = none)
      (fun _ => True) (closeFiles p fds s) := by
  induction fds generalizing s with
  | nil => exact ⟨during, .refl p s.proc, by simp⟩
  | cons fd rest ih =>
    simp only [Files.closeFiles]
    split
    case h_1 empty =>
      apply (ih during).mono
      rintro s' ⟨done, same, closed⟩
      refine ⟨done, same, ?_⟩
      intro later which
      apply closed later
      rcases which with member | none
      · rcases List.mem_cons.mp member with rfl | inside
        · exact .inr empty
        · exact .inl inside
      · exact .inr none
    case h_2 f used =>
      -- The slot is cleared after `fileclose`, which does not look at it.
      apply (during.setFile files none used).fileclose.bind
      intro t dropped
      apply (ih (s := ({ s with tables := t } : Files).setFile p fd none) dropped).mono
      rintro s' ⟨done, same, closed⟩
      refine ⟨done, ((Redirects.refl p s.proc).write none).trans same, ?_⟩
      intro later which
      apply closed later
      by_cases same : later = fd
      · subst same
        simp [Files.setFile, setProc]
      · simp only [List.mem_cons, same, false_or] at which
        simpa [Files.setFile, setProc, same] using which

theorem Exact.exit (exact : s.Exact) (alive : (s.proc p).state.alive = true) :
    Yields Exact (fun _ => True) (s.exit p) := by
  unfold Files.exit
  split
  case isTrue => trivial
  case isFalse =>
    apply (exact.during.closeFiles (p := p) (List.finRange nOfile)).bind
    rintro s₁ ⟨done, same, closed⟩
    obtain ⟨k, _, used, _⟩ := exact.cwd alive
    have usedStill : (s₁.proc p).cwd = some k := same.cwd.trans used
    have foundCwd : s₁.cwd p = .ok k := by rw [Files.cwd, usedStill]; rfl
    rw [foundCwd]
    have dropped := done.setCwd [] none usedStill .zombie
    apply (dropped.fs.counting.iput Fs.counting_rules.toReads).bind
    intro fs put
    refine exact.replace p (fun q apart => ?_) (dropped.setFs put.call) (fun _ => ?_) ?_
    · exact (update_of_ne apart ..).trans (same.others q apart)
    · simpa [setProc] using fun fd => closed fd (.inl (List.mem_finRange fd))
    · simp [setProc, ProcState.alive]

theorem Exact.reap (exact : s.Exact) (dead : (s.proc p).state = .zombie) :
    (s.setProc p { s.proc p with state := .unused }).Exact := by
  obtain ⟨noFiles, noCwd⟩ := exact.idle p (by rw [dead]; rfl)
  have same := exact.during.setCwd [] none noCwd .unused
  refine exact.replace p (fun q apart => update_of_ne apart ..) ?_ ?_ ?_
  · show (s.setProc p ⟨.unused, (s.proc p).ofile, (s.proc p).cwd⟩).During [] [] []
    rw [noCwd]
    exact same
  · simpa [setProc] using fun _ => ⟨noFiles, noCwd⟩
  · simp [setProc, ProcState.alive]

theorem Exact.step (exact : s.Exact) (call : Syscall) (allowed : call.Allowed s) :
    Yields Exact (fun _ => True) (s.step call) := by
  cases call with
  | «open» p path omode => exact Yields.snd (exact.sysOpen allowed path omode)
  | close p fd => exact Yields.snd (exact.sysClose allowed fd)
  | dup p fd => exact Yields.snd (exact.sysDup allowed fd)
  | pipe p page => exact Yields.snd (exact.sysPipe allowed.1 allowed.2)
  | fork p copied => exact Yields.snd (exact.fork allowed copied)
  | exit p => exact exact.exit allowed
  | wait zombie => exact exact.reap allowed
  | chdir p path => exact Yields.snd (exact.sysChdir allowed path)
  | link p old new => exact Yields.snd (exact.sysLink allowed old new)
  | unlink p path => exact Yields.snd (exact.sysUnlink allowed path)
  | mkdir p path => exact Yields.snd (exact.make allowed path .dir 0 0)
  | mknod p path major minor => exact Yields.snd (exact.make allowed path .dev major minor)
  | exec p path reads => exact Yields.snd (exact.sysExec allowed path reads)
  | refused p => exact exact

/-! ## Runs -/

/-- A system that nothing has used. -/
def unused (fs : Fs) (first : Fin nInode) (initproc : Fin nproc) : Files :=
  ⟨⟨fs, fun _ => ⟨.none, 0, false, 0, first⟩, fun _ => none⟩,
    fun _ => ⟨.unused, fun _ => none, none⟩, initproc⟩

theorem unused_during {fs : Fs} (first : Fin nInode) (initproc : Fin nproc)
    (call : fs.Call (fun _ => 0) refs []) : (unused fs first initproc).During [] refs [] := by
  have slots : ∀ f, (unused fs first initproc).slots f = 0 := by
    intro f
    apply tally_eq_zero.mpr
    intro p
    apply tally_eq_zero.mpr
    simp [unused]
  refine ⟨⟨?_, ?_, ?_, ?_, ?_⟩, ?_⟩
  · intro f
    rw [slots]
    rfl
  · intro f _
    rfl
  · intro b writable
    simp [unused, openEnd, OpenFile.End]
  · intro b writable f g is
    exact absurd is.1 (lt_irrefl 0)
  · intro b pipe there
    cases there
  · apply call.rebase
    intro k
    have unplaced : (unused fs first initproc).cwds k = 0 := by
      apply tally_eq_zero.mpr
      simp [unused, FileProc.stays]
    have unopened : (unused fs first initproc).tables.openInodes k = 0 := by
      apply tally_eq_zero.mpr
      simp [unused, OpenFile.uses]
    rw [unplaced, unopened]

theorem namei_root (fs : Fs) (cwd : Fin nInode) :
    fs.namei cwd [slash] = (do
      let (ip, fs) ← fs.iget rootIno
      pure (some ip, fs)) := by
  simp only [Fs.namei, Fs.namex, List.head?_cons, ↓reduceIte]
  cases fs.iget rootIno with
  | error stop => rfl
  | ok r => rfl

/-- The references are exact when the first process starts. -/
theorem boot_exact {disk : Disk} {initproc : Fin nproc} (booted : boot disk initproc = .ok s) :
    s.Exact := by
  have call : (⟨disk, fun _ => ⟨0, 0, false, false, .zero⟩⟩ : Fs).Call (fun _ => 0) [] [] := by
    constructor
    · intro k
      rfl
    · simp
    · intro k l referenced
      exact absurd referenced (lt_irrefl 0)
  have outcome : Yields Exact (fun _ => True) (boot disk initproc) := by
    rw [boot, namei_root]
    cases got : (⟨disk, fun _ => ⟨0, 0, false, false, .zero⟩⟩ : Fs).iget rootIno with
    | error stop => trivial
    | ok r =>
      have counted := (call.iget rootIno).of_ok got
      have taken := (unused_during ⟨0, by decide⟩ initproc counted.1).setCwd (p := initproc) []
        (some r.1) rfl .runnable
      refine ⟨taken, ?_, ?_⟩
      · intro q dead
        by_cases here : q = initproc
        · subst here
          simp [setProc, ProcState.alive] at dead
        · simp [setProc, here]
      · intro q alive
        by_cases here : q = initproc
        · subst here
          simp [setProc]
        · simp [setProc, here, ProcState.alive] at alive
  exact outcome.of_ok booted

end Files

/-- After every sequence of calls, successful or not, the reference count of an open file is the
number of descriptors for it, that of a cached inode the number of open files for it and of
processes in it, no inode is in two cache entries, and a pipe exists exactly while one of its ends
is referenced. -/
theorem Files.run_references {disk : Disk} {initproc : Fin nproc} {s s' : Files}
    (booted : Files.boot disk initproc = .ok s)
    (run : Relation.ReflTransGen (Steps Files.step Syscall.Allowed) s s') :
    (∀ f, (s'.tables.file f).ref =
      (∑ p, ∑ fd, if (s'.proc p).ofile fd = some f then 1 else 0 : Nat)) ∧
    (∀ k, (s'.tables.fs.icache k).ref =
      ((∑ p, if (s'.proc p).cwd = some k then 1 else 0) +
        ∑ f, if 0 < (s'.tables.file f).ref ∧ (s'.tables.file f).type = .inode ∧
          (s'.tables.file f).ip = k then 1 else 0 : Nat)) ∧
    (∀ k l, 0 < (s'.tables.fs.icache k).ref → 0 < (s'.tables.fs.icache l).ref →
      (s'.tables.fs.icache k).inum = (s'.tables.fs.icache l).inum → k = l) ∧
    ∀ b, (s'.tables.pipes b).isSome ↔ ∃ f, 0 < (s'.tables.file f).ref ∧
      (s'.tables.file f).type = .pipe ∧ (s'.tables.file f).pipe = b := by
  have reached : s'.Exact := by
    apply steps_invariant Files.Exact _ (Files.boot_exact booted) run
    intro state call next exact allowed stepped
    exact (exact.step call allowed).of_ok stepped
  refine ⟨?_, ?_, reached.during.fs.single, reached.during.counted.pipe_iff⟩
  · intro f
    rw [reached.during.counted.ref f]
    simp only [Files.slots, FileProc.uses, tally, List.count_nil, Nat.add_zero]
  · intro k
    rw [reached.during.fs.ref k]
    simp only [Files.cwds, FileProc.stays, FileTables.openInodes, OpenFile.uses, tally,
      List.count_nil, Nat.add_zero]

instance Syscall.decidableAllowed (s : Files) (call : Syscall) : Decidable (call.Allowed s) := by
  cases call <;> unfold Syscall.Allowed <;> infer_instance

/-- A disk that has nothing but an empty root directory. -/
def Disk.rootOnly : Disk where
  sb := ⟨6, 8, 2, 3, by decide, Superblock.oneBlock_roomy⟩
  devsw := fun _ => ⟨fun _ => none, fun _ => none⟩
  dinode := Function.update (fun _ => .zero) 1 ⟨.dir, 0, 0, 1, 0, fun _ => 0⟩
  used := fun b => decide (b ≤ 3)
  data := fun _ _ => 0

/-- The first process opens the root directory and a pipe and forks; the child changes its
directory, one end of the pipe is closed twice, and the child exits. -/
def Syscall.shared : List Syscall :=
  let init : Fin nproc := ⟨0, by decide⟩
  let child : Fin nproc := ⟨1, by decide⟩
  [.open init [slash] oRdonly, .pipe init (some 7), .dup init 0, .fork init true,
    .chdir child [slash], .close init 2, .close init 2, .exit child, .wait child]

/-- The read end of the pipe and both descriptors of the directory are left. -/
theorem Files.shared_references : ∃ s s',
    Files.boot Disk.rootOnly ⟨0, by decide⟩ = .ok s ∧
      Outcome.run (guarded Files.step Syscall.Allowed .endless) s Syscall.shared = .ok s' ∧
      ((s'.tables.fs.icache ⟨0, by decide⟩).ref, (s'.tables.pipes 7).isSome) = (2, true) ∧
      ∃ f, 0 < (s'.tables.file f).ref ∧ (s'.tables.file f).type = .pipe ∧
        (s'.tables.file f).pipe = 7 := by
  have returns : ((Files.boot Disk.rootOnly ⟨0, by decide⟩ >>= fun s =>
      (Outcome.run (guarded Files.step Syscall.Allowed .endless) s Syscall.shared).map
        fun s' => (s, s')).map fun r =>
          ((r.2.tables.fs.icache ⟨0, by decide⟩).ref, (r.2.tables.pipes 7).isSome)).toOption =
        some (2, true) := by
    decide +kernel
  obtain ⟨r, finished, seen⟩ := exists_ok returns
  obtain ⟨s, booted, rest⟩ := bind_eq_ok.mp finished
  obtain ⟨s', ran, rfl⟩ := map_eq_ok.mp rest
  refine ⟨s, s', booted, ran, seen, ?_⟩
  have pipes := (Files.run_references booted (run_guarded ran)).2.2.2 7
  exact pipes.mp (congrArg Prod.snd seen)

end MemoryEncryption
