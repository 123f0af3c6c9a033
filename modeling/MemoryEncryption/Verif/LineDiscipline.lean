import MemoryEncryption.Kernel.Console

/-!
# The line discipline of the console

The buffer holds the characters that are committed and not yet read, followed by the line
being edited. Each key is an edit of that line, which may commit it; a stretch of a
reader takes characters from the front. A history of the run records the edits, the
characters taken and the calls that have returned, and the results relate the three.
-/

namespace MemoryEncryption

open Function RingBuffer

/-! ## Edits -/

/-- What a key does to the text. -/
inductive Edit where
  /-- A character is accepted; it may fill the buffer. -/
  | insert (c : Byte) (fills : Bool)
  /-- The last character of the line is erased. -/
  | backspace
  /-- The line is erased. -/
  | kill
  deriving DecidableEq, Repr

/-- An edit of the committed text and the line: a newline, a `C('D')` and a full buffer commit the
line. -/
def Edit.apply (text : List Byte × List Byte) : Edit → List Byte × List Byte
  | .insert c fills =>
    if c = newline ∨ c = control 'D' ∨ fills = true then (text.1 ++ text.2 ++ [c], [])
    else (text.1, text.2 ++ [c])
  | .backspace => (text.1, text.2.dropLast)
  | .kill => (text.1, [])

/-- The committed text and the line that edits make. -/
def discipline (edits : List Edit) : List Byte × List Byte := edits.foldl Edit.apply ([], [])

theorem Edit.apply_append (before unread line : List Byte) (edit : Edit) :
    edit.apply (before ++ unread, line) =
      (before ++ (edit.apply (unread, line)).1, (edit.apply (unread, line)).2) := by
  cases edit with
  | insert c fills =>
    simp only [apply]
    split
    · simp
    · rfl
  | backspace => rfl
  | kill => rfl

namespace Input

variable {input : Input}

/-- The buffer as a ring of all characters that are not read yet. -/
def ring (input : Input) : Ring Byte 32 := ⟨input.buf, input.r, input.e⟩

/-- All characters in the buffer, the oldest first. -/
def chars (input : Input) : List Byte := input.ring.contents inputBuf

/-- The characters that readers may take. -/
def unread (input : Input) : List Byte := input.chars.take (input.w - input.r).toNat

/-- The line being edited. -/
def line (input : Input) : List Byte := input.chars.drop (input.w - input.r).toNat

/-- The indices are in order, and no further apart than the buffer is large. -/
structure Valid (input : Input) : Prop where
  order : (input.w - input.r).toNat ≤ (input.e - input.r).toNat
  room : (input.e - input.r).toNat ≤ inputBuf

/-- The edit that a key makes, if any. -/
def edit (input : Input) (c : Byte) : Option Edit :=
  if c = control 'P' then none
  else if c = control 'U' then some .kill
  else if c = control 'H' ∨ c = delete then some .backspace
  else if c ≠ 0 ∧ input.chars.length < inputBuf then
    some (.insert (if c = carriageReturn then newline else c)
      (input.chars.length + 1 = inputBuf))
  else none

theorem length_chars (input : Input) : input.chars.length = (input.e - input.r).toNat := by
  simp [chars, Ring.contents, Ring.count, ring]

theorem unread_append_line (input : Input) : input.unread ++ input.line = input.chars :=
  List.take_append_drop _ _

theorem length_unread (valid : input.Valid) : input.unread.length = (input.w - input.r).toNat := by
  rw [unread, List.length_take, length_chars]
  exact Nat.min_eq_left valid.order

theorem unread_eq_nil (valid : input.Valid) : input.unread = [] ↔ input.r = input.w := by
  rw [← List.length_eq_zero_iff, length_unread valid]
  show (⟨input.buf, input.r, input.w⟩ : Ring Byte 32).count = 0 ↔ _
  exact Ring.count_eq_zero

theorem line_eq_nil (valid : input.Valid) : input.line = [] ↔ input.e = input.w := by
  rw [line, List.drop_eq_nil_iff, length_chars]
  constructor
  · intro low
    have same : input.e - input.r = input.w - input.r :=
      BitVec.eq_of_toNat_eq (Nat.le_antisymm low valid.order)
    have back := congrArg (· + input.r) same
    simpa using back
  · intro same
    rw [same]

theorem inputBuf_dvd : inputBuf ∣ 2 ^ 32 := by decide

theorem chars_store (room : (input.e - input.r).toNat < inputBuf) (w : BitVec 32) (c : Byte) :
    (⟨update input.buf (input.e.toNat % inputBuf) c, input.r, w, input.e + 1⟩ :
      Input).chars = input.chars ++ [c] := by
  have space : input.ring.count < inputBuf := room
  exact Ring.contents_push inputBuf_dvd (by decide) space c

theorem chars_erase (valid : input.Valid) (some : 0 < (input.e - input.r).toNat) :
    input.chars = ({ input with e := input.e - 1 } : Input).chars ++
      [input.buf ((input.e - 1).toNat % inputBuf)] :=
  Ring.contents_retract inputBuf_dvd (by decide) valid.room some

theorem chars_take (some : 0 < (input.e - input.r).toNat) :
    input.chars = input.buf (input.r.toNat % inputBuf) ::
      ({ input with r := input.r + 1 } : Input).chars :=
  Ring.contents_pop inputBuf_dvd (by decide) some

/-- A backspace erases the last character of the line. -/
theorem erase_spec (valid : input.Valid) (open' : input.e ≠ input.w) :
    ({ input with e := input.e - 1 } : Input).Valid ∧
      ({ input with e := input.e - 1 } : Input).unread = input.unread ∧
      input.line = ({ input with e := input.e - 1 } : Input).line ++
        [input.buf ((input.e - 1).toNat % inputBuf)] := by
  have more : (input.w - input.r).toNat < (input.e - input.r).toNat := by
    apply Nat.lt_of_le_of_ne valid.order
    intro same
    apply open'
    rw [← line_eq_nil valid, line, List.drop_eq_nil_iff, length_chars, same]
  have split := chars_erase valid (by omega)
  have fewer := congrArg List.length split
  rw [List.length_append, List.length_singleton, length_chars, length_chars] at fewer
  have room := valid.room
  refine ⟨⟨?_, ?_⟩, ?_, ?_⟩
  · show (input.w - input.r).toNat ≤ (input.e - 1 - input.r).toNat
    simp only at fewer
    omega
  · show (input.e - 1 - input.r).toNat ≤ inputBuf
    simp only at fewer
    omega
  · rw [unread, unread, split, List.take_append_of_le_length]
    rw [length_chars]
    simp only at fewer ⊢
    omega
  · rw [line, line, split, List.drop_append_of_le_length]
    rw [length_chars]
    simp only at fewer ⊢
    omega

/-- The loop of `C('U')` erases the whole line, in which there is no newline. -/
theorem killLoop_spec (rounds : Nat) (valid : input.Valid) (clean : newline ∉ input.line)
    (enough : input.line.length ≤ rounds) :
    (input.killLoop rounds).Valid ∧ (input.killLoop rounds).unread = input.unread ∧
      (input.killLoop rounds).line = [] := by
  induction rounds generalizing input with
  | zero => exact ⟨valid, rfl, List.length_eq_zero_iff.mp (Nat.le_zero.mp enough)⟩
  | succ rounds ih =>
    rw [killLoop]
    by_cases open' : input.e ≠ input.w
    · obtain ⟨valid', unread', line'⟩ := erase_spec valid open'
      rw [line'] at clean enough
      have other : input.buf ((input.e - 1).toNat % inputBuf) ≠ newline := by
        intro same
        apply clean
        rw [same]
        exact List.mem_append_right _ (List.mem_singleton_self _)
      rw [if_pos ⟨open', other⟩]
      obtain ⟨valid'', unread'', line''⟩ := ih valid'
        (fun member => clean (List.mem_append_left _ member)) (by simpa using enough)
      exact ⟨valid'', unread''.trans unread', line''⟩
    · rw [if_neg (fun both => open' both.1)]
      exact ⟨valid, rfl, (line_eq_nil valid).mpr (not_ne_iff.mp open')⟩

theorem length_line (valid : input.Valid) : input.line.length = (input.e - input.w).toNat := by
  have apart : input.e - input.w = input.e - input.r - (input.w - input.r) := by bv_omega
  have order : input.w - input.r ≤ input.e - input.r := valid.order
  rw [line, List.length_drop, length_chars, apart, BitVec.toNat_sub_of_le order]

/-- A stored character comes at the end of the line, which it may commit. -/
theorem store_spec (valid : input.Valid) (clean : newline ∉ input.line) (c : Byte)
    (space : (input.e - input.r).toNat < inputBuf) :
    let after : Input :=
      (if c = newline ∨ c = control 'D' ∨ input.e + 1 = input.r + BitVec.ofNat 32 inputBuf then
        (⟨update input.buf (input.e.toNat % inputBuf) c, input.r, input.e + 1,
          input.e + 1⟩, true)
      else
        ((⟨update input.buf (input.e.toNat % inputBuf) c, input.r, input.w,
          input.e + 1⟩ : Input), false)).1
    after.Valid ∧ newline ∉ after.line ∧ (after.unread, after.line) =
      Edit.apply (input.unread, input.line) (.insert c (input.chars.length + 1 = inputBuf)) := by
  have fills : input.e + 1 = input.r + BitVec.ofNat 32 inputBuf ↔
      input.chars.length + 1 = inputBuf := by
    rw [length_chars]
    unfold inputBuf
    constructor
    · intro same
      bv_omega
    · intro same
      bv_omega
  have longer : (input.e + 1 - input.r).toNat = (input.e - input.r).toNat + 1 := by
    unfold inputBuf at space
    bv_omega
  have order := valid.order
  simp only [fills, Edit.apply, decide_eq_true_eq]
  split
  case isTrue commits =>
    have all := chars_store space (input.e + 1) c
    have line' : (⟨update input.buf (input.e.toNat % inputBuf) c, input.r, input.e + 1,
        input.e + 1⟩ : Input).line = [] := by
      rw [line, List.drop_eq_nil_iff, length_chars]
    refine ⟨⟨le_rfl, by simp only [longer]; omega⟩, by rw [line']; exact List.not_mem_nil, ?_⟩
    rw [line', unread_append_line, ← all, ← unread_append_line, line', List.append_nil]
  case isFalse stays =>
    have all := chars_store space input.w c
    have unread' : (⟨update input.buf (input.e.toNat % inputBuf) c, input.r, input.w,
        input.e + 1⟩ : Input).unread = input.unread := by
      rw [unread, all, List.take_append_of_le_length (by rw [length_chars]; exact order)]
      rfl
    have line' : (⟨update input.buf (input.e.toNat % inputBuf) c, input.r, input.w,
        input.e + 1⟩ : Input).line = input.line ++ [c] := by
      rw [line, all, List.drop_append_of_le_length (by rw [length_chars]; exact order)]
      rfl
    refine ⟨⟨by simp only [longer]; omega, by simp only [longer]; omega⟩, ?_, ?_⟩
    · rw [line', List.mem_append, List.mem_singleton]
      rintro (member | rfl)
      · exact clean member
      · exact stays (.inl rfl)
    · rw [unread', line']

/-- Every key makes its edit, and leaves no newline in the line. -/
theorem key_spec (valid : input.Valid) (clean : newline ∉ input.line) (c : Byte) :
    (input.key c).1.Valid ∧ newline ∉ (input.key c).1.line ∧
      ((input.key c).1.unread, (input.key c).1.line) =
        (input.edit c).toList.foldl Edit.apply (input.unread, input.line) := by
  unfold key edit
  by_cases list : c = control 'P'
  · simp only [list, ↓reduceIte]
    exact ⟨valid, clean, rfl⟩
  simp only [list, ↓reduceIte]
  by_cases kill : c = control 'U'
  · simp only [kill, ↓reduceIte]
    obtain ⟨valid', unread', line'⟩ := killLoop_spec (input.e - input.w).toNat valid clean
      (length_line valid).le
    refine ⟨valid', by rw [line']; exact List.not_mem_nil, ?_⟩
    rw [unread', line']
    rfl
  simp only [kill, ↓reduceIte]
  by_cases back : c = control 'H' ∨ c = delete
  · simp only [back, ↓reduceIte]
    by_cases open' : input.e ≠ input.w
    · obtain ⟨valid', unread', line'⟩ := erase_spec valid open'
      rw [if_pos open']
      rw [line'] at clean
      refine ⟨valid', fun member => clean (List.mem_append_left _ member), ?_⟩
      rw [unread', line']
      simp [Edit.apply]
    · have empty := (line_eq_nil valid).mpr (not_ne_iff.mp open')
      rw [if_neg open']
      refine ⟨valid, clean, ?_⟩
      simp [Edit.apply, empty]
  simp only [back, ↓reduceIte]
  by_cases accepted : c ≠ 0 ∧ (input.e - input.r).toNat < inputBuf
  · have accepted' : c ≠ 0 ∧ input.chars.length < inputBuf := by
      rw [length_chars]
      exact accepted
    rw [if_pos accepted, if_pos accepted']
    generalize (if c = carriageReturn then newline else c) = stored
    exact store_spec valid clean stored accepted.2
  · rw [if_neg accepted, if_neg (by rw [length_chars]; exact accepted)]
    exact ⟨valid, clean, rfl⟩

/-- The edits that the characters of an interrupt make. -/
def edits (input : Input) : List Byte → List Edit
  | [] => []
  | c :: rest => (input.edit c).toList ++ (input.key c).1.edits rest

theorem consoleintr_spec (valid : input.Valid) (clean : newline ∉ input.line) (typed : List Byte) :
    (consoleintr input typed).1.Valid ∧ newline ∉ (consoleintr input typed).1.line ∧
      ((consoleintr input typed).1.unread, (consoleintr input typed).1.line) =
        (input.edits typed).foldl Edit.apply (input.unread, input.line) := by
  induction typed generalizing input with
  | nil => exact ⟨valid, clean, rfl⟩
  | cons c rest ih =>
    obtain ⟨valid', clean', edited⟩ := key_spec valid clean c
    obtain ⟨valid'', clean'', rest'⟩ := ih valid' clean'
    refine ⟨valid'', clean'', ?_⟩
    rw [edits, List.foldl_append, ← edited]
    exact rest'

/-! ## Reading -/

/-- Why a stretch of `consoleread` ends, with room for `n` of `target` characters at its beginning. -/
def Because (target n : Nat) (bytes : List Byte) (after : Input) : ReadEnd → Prop
  | .full => bytes.length = n
  | .newline => bytes.getLast? = some newline
  | .eof => bytes = [] ∧ n = target ∨ after.unread.head? = some (control 'D')
  | .blocked => after.unread = []

/-- What a stretch of `consoleread` that ends so has done. -/
structure Reads (target n : Nat) (input : Input) (bytes : List Byte) (after : Input)
    (ending : ReadEnd) : Prop where
  valid : after.Valid
  line : after.line = input.line
  /-- The characters come from the front; a `C('D')` is used up if nothing was read before it. -/
  taken : input.unread = bytes ++
    (if ending = .eof ∧ bytes = [] ∧ n = target then [control 'D'] else []) ++ after.unread
  fits : bytes.length ≤ n
  noEof : control 'D' ∉ bytes
  newline : newline ∉ if ending = .newline then bytes.dropLast else bytes
  reason : Because target n bytes after ending

theorem take_spec (valid : input.Valid) (some : input.r ≠ input.w) :
    ({ input with r := input.r + 1 } : Input).Valid ∧
      ({ input with r := input.r + 1 } : Input).line = input.line ∧
      input.unread = input.buf (input.r.toNat % inputBuf) ::
        ({ input with r := input.r + 1 } : Input).unread := by
  have positive : 0 < (input.w - input.r).toNat := by
    rw [← length_unread valid, List.length_pos_iff]
    exact mt (unread_eq_nil valid).mp some
  have order := valid.order
  have room := valid.room
  have fewer : (input.w - (input.r + 1)).toNat + 1 = (input.w - input.r).toNat := by bv_omega
  have fewer' : (input.e - (input.r + 1)).toNat + 1 = (input.e - input.r).toNat := by bv_omega
  have split : input.chars = _ := chars_take (by omega)
  refine ⟨⟨by simp only; omega, by simp only; omega⟩, ?_, ?_⟩
  · conv_rhs => rw [line, split, ← fewer, List.drop_succ_cons]
    rfl
  · conv_lhs => rw [unread, split, ← fewer, List.take_succ_cons]
    rfl

theorem readLoop_spec (target : Nat) {n : Nat} (valid : input.Valid) (within : n ≤ target) :
    Reads target n input (readLoop target n input).1 (readLoop target n input).2.1
      (readLoop target n input).2.2 := by
  induction n generalizing input with
  | zero =>
    exact ⟨valid, rfl, rfl, le_rfl, List.not_mem_nil, List.not_mem_nil, rfl⟩
  | succ n ih =>
    rw [readLoop]
    by_cases empty : input.r = input.w
    · rw [if_pos empty]
      exact ⟨valid, rfl, rfl, Nat.zero_le _, List.not_mem_nil, List.not_mem_nil,
        (unread_eq_nil valid).mpr empty⟩
    obtain ⟨valid', line', taken⟩ := take_spec valid empty
    rw [if_neg empty]
    simp only
    by_cases eof : input.buf (input.r.toNat % inputBuf) = control 'D'
    · rw [if_pos eof]
      rw [eof] at taken
      by_cases later : n + 1 < target
      · have back : ({ input with r := input.r + 1 - 1 } : Input) = input := by
          rw [BitVec.add_sub_cancel]
        simp only [if_pos later, back]
        refine ⟨valid, rfl, ?_, Nat.zero_le _, List.not_mem_nil, List.not_mem_nil, .inr ?_⟩
        · simp [show n + 1 ≠ target by omega]
        · rw [taken]
          rfl
      · have all : n + 1 = target := by omega
        simp only [if_neg later]
        refine ⟨valid', line', ?_, Nat.zero_le _, List.not_mem_nil, List.not_mem_nil,
          .inl ⟨rfl, all⟩⟩
        simp only [all]
        exact taken
    · rw [if_neg eof]
      by_cases last : input.buf (input.r.toNat % inputBuf) = newline
      · rw [if_pos last]
        refine ⟨valid', line', taken, by simp, ?_, by simp, by simp [Because, last]⟩
        simpa using Ne.symm eof
      · rw [if_neg last]
        have rest := ih valid' (by omega)
        generalize readLoop target n { input with r := input.r + 1 } = result at rest ⊢
        obtain ⟨bytes, after, ending⟩ := result
        have short : n ≠ target := by omega
        refine ⟨rest.valid, rest.line.trans line', ?_, Nat.succ_le_succ rest.fits, ?_, ?_, ?_⟩
        · rw [taken, rest.taken]
          simp [short]
        · rw [List.mem_cons]
          rintro (same | member)
          · exact eof same.symm
          · exact rest.noEof member
        · have clean := rest.newline
          cases ending with
          | newline =>
            have some : bytes ≠ [] := by
              rintro rfl
              simpa [Because] using rest.reason
            simp only [↓reduceIte] at clean ⊢
            rw [List.dropLast_cons_of_ne_nil some, List.mem_cons]
            rintro (same | member)
            · exact last same.symm
            · exact clean member
          | full | eof | blocked =>
            simp only [reduceCtorEq, ↓reduceIte] at clean ⊢
            rw [List.mem_cons]
            rintro (same | member)
            · exact last same.symm
            · exact clean member
        · have reason := rest.reason
          cases ending with
          | full => exact congrArg Nat.succ reason
          | newline =>
            simp only [Because] at reason ⊢
            rw [List.getLast?_cons, reason]
            rfl
          | eof => exact .inr (reason.resolve_left fun both => short both.2)
          | blocked => exact reason

end Input

/-! ## The history of a run -/

/-- A call of `consoleread` that has returned. -/
structure ReadCall (procs : Nat) where
  reader : Fin procs
  size : Nat
  bytes : List Byte
  ending : ReadEnd
  value : Int
  start : Nat
  /-- The number of characters taken from the buffer when it returned. -/
  stop : Nat

/-- What has happened so far. -/
structure History (procs : Nat) where
  edits : List Edit
  /-- The characters taken from the buffer, with the process that took each. -/
  taken : List (Fin procs × Byte)
  /-- The number of characters taken before the last call of each process. -/
  since : Fin procs → Nat
  calls : List (ReadCall procs)

variable {procs : Nat}

/-- What a stretch of `consoleread` takes: the characters it stores, and a `C('D')` that comes first
in the call. -/
def takes (got bytes : List Byte) (ending : ReadEnd) : List Byte :=
  bytes ++ if ending = .eof ∧ got ++ bytes = [] then [control 'D'] else []

/-- The history after an event in a state. -/
def History.record (h : History procs) (s : Console procs) : ConsoleEvent procs → History procs
  | .interrupt typed => { h with edits := h.edits ++ s.input.edits typed }
  | .call p _ =>
    match s.pc p with
    | .outside _ => { h with since := Function.update h.since p h.taken.length }
    | _ => h
  | .resume p =>
    match s.pc p with
    | .reading target got =>
      let (bytes, _, ending) := readLoop target (target - got.length) s.input
      let taken := h.taken ++ (takes got bytes ending).map fun c => (p, c)
      { h with
        taken := taken
        calls := match (s.step (.resume p)).pc p with
          | .outside value =>
            h.calls ++ [⟨p, target, got ++ bytes, ending, value, h.since p, taken.length⟩]
          | _ => h.calls }
    | _ => h
  | .kill _ => h

/-- The console after some events, with its history. -/
def Console.after (events : List (ConsoleEvent procs)) : Console procs × History procs :=
  events.foldl (fun now event => (now.1.step event, now.2.record now.1 event))
    (Console.start procs, ⟨[], [], fun _ => 0, []⟩)

/-- The characters that a process took, among those taken from `start` up to `stop`. -/
def share (taken : List (Fin procs × Byte)) (p : Fin procs) (start stop : Nat) : List Byte :=
  (((taken.take stop).drop start).filter fun c => c.1 = p).map Prod.snd

/-- A call in progress has its share of the characters, none of which ended it. -/
structure InCall (h : History procs) (p : Fin procs) (target : Nat) (got : List Byte) : Prop where
  began : h.since p ≤ h.taken.length
  share : share h.taken p (h.since p) h.taken.length = got
  fits : got.length ≤ target
  noEof : control 'D' ∉ got
  newline : newline ∉ got

/-- A call that has returned got its share of the characters, up to a newline or a `C('D')`. -/
structure ReadCall.Lawful (call : ReadCall procs) (h : History procs) : Prop where
  /-- The call lies in the past. -/
  past : call.start ≤ call.stop ∧ call.stop ≤ h.taken.length
  /-- It took the characters it stored, and a `C('D')` if that was the first. -/
  share : share h.taken call.reader call.start call.stop = takes [] call.bytes call.ending
  /-- There was room for them. -/
  fits : call.bytes.length ≤ call.size
  /-- No `C('D')` is stored. -/
  noEof : control 'D' ∉ call.bytes
  /-- A newline is the last character. -/
  newline : newline ∉ if call.ending = .newline then call.bytes.dropLast else call.bytes
  /-- The value is the number of characters, or -1 for a process that was killed. -/
  value : call.value = if call.ending = .blocked then -1 else (call.bytes.length : Int)
  /-- A call with room for a character returns 0 exactly when a `C('D')` came first. -/
  zero : 0 < call.size → (call.value = 0 ↔ call.ending = .eof ∧ call.bytes = [])
  /-- A call that ended at a later `C('D')` left it as the next character. -/
  kept : call.ending = .eof → call.bytes ≠ [] →
    (discipline h.edits).1[call.stop]? = some (control 'D')

/-- What holds between the console and its history. -/
structure Console.Lawful (s : Console procs) (h : History procs) : Prop where
  /-- The indices are in order and fit the buffer. -/
  valid : s.input.Valid
  /-- The committed text is what was taken followed by what is left, and the line is the one being
  edited. -/
  text : discipline h.edits = (h.taken.map Prod.snd ++ s.input.unread, s.input.line)
  /-- There is no newline in the line. -/
  clean : newline ∉ s.input.line
  /-- Calls in progress. -/
  inside : ∀ p target got, s.pc p = .reading target got ∨ s.pc p = .sleeping target got →
    InCall h p target got
  /-- Calls that have returned. -/
  calls : ∀ call ∈ h.calls, call.Lawful h
  /-- Every `C('D')` taken ended a call, which returned 0. -/
  eofs : ∀ i p, h.taken[i]? = some (p, control 'D') → ∃ call ∈ h.calls, call.reader = p ∧
    call.start ≤ i ∧ call.stop = i + 1 ∧ call.bytes = [] ∧ call.ending = .eof ∧ call.value = 0

/-! ## Steps -/

theorem share_past (taken extra : List (Fin procs × Byte)) (p : Fin procs) (start : Nat) {stop : Nat}
    (past : stop ≤ taken.length) : share (taken ++ extra) p start stop = share taken p start stop := by
  rw [share, List.take_append_of_le_length past]
  rfl

theorem share_grows (taken : List (Fin procs × Byte)) (p q : Fin procs) {start : Nat}
    (bytes : List Byte) (began : start ≤ taken.length) :
    share (taken ++ bytes.map fun c => (q, c)) p start (taken ++ bytes.map fun c => (q, c)).length =
      share taken p start taken.length ++ if q = p then bytes else [] := by
  rw [share, List.take_length, List.drop_append_of_le_length began, List.filter_append,
    List.map_append, share, List.take_length]
  congr 1
  split
  case isTrue same =>
    rw [List.filter_map, List.map_map, List.filter_eq_self.mpr (by simp [same])]
    simp
  case isFalse other =>
    rw [List.filter_map, List.filter_eq_nil_iff.mpr (by simp [other])]
    rfl

theorem edits_extend (edits : List Edit) (text : List Byte × List Byte) :
    ∃ more, (edits.foldl Edit.apply text).1 = text.1 ++ more := by
  induction edits generalizing text with
  | nil => exact ⟨[], (List.append_nil _).symm⟩
  | cons edit rest ih =>
    obtain ⟨more, extended⟩ := ih (edit.apply text)
    have first : ∃ new, (edit.apply text).1 = text.1 ++ new := by
      cases edit with
      | insert c fills =>
        simp only [Edit.apply]
        split
        · exact ⟨text.2 ++ [c], List.append_assoc _ _ _⟩
        · exact ⟨[], (List.append_nil _).symm⟩
      | backspace | kill => exact ⟨[], (List.append_nil _).symm⟩
    obtain ⟨new, added⟩ := first
    exact ⟨new ++ more, by rw [List.foldl_cons, extended, added, List.append_assoc]⟩

theorem edits_append (before unread line : List Byte) (edits : List Edit) :
    edits.foldl Edit.apply (before ++ unread, line) =
      (before ++ (edits.foldl Edit.apply (unread, line)).1,
        (edits.foldl Edit.apply (unread, line)).2) := by
  induction edits generalizing unread line with
  | nil => rfl
  | cons edit rest ih =>
    rw [List.foldl_cons, Edit.apply_append, ih]
    rfl

namespace Console

variable {s : Console procs} {h : History procs}

theorem Lawful.moved (lawful : s.Lawful h) {pc : Fin procs → ReadPlace} {killed : Fin procs → Bool}
    (same : ∀ p target got, pc p = .reading target got ∨ pc p = .sleeping target got →
      s.pc p = .reading target got ∨ s.pc p = .sleeping target got) :
    Lawful ⟨s.input, killed, pc⟩ h :=
  ⟨lawful.valid, lawful.text, lawful.clean,
    fun p target got place => lawful.inside p target got (same p target got place), lawful.calls,
    lawful.eofs⟩

theorem Lawful.interrupt (lawful : s.Lawful h) (typed : List Byte) :
    (s.step (.interrupt typed)).Lawful (h.record s (.interrupt typed)) := by
  obtain ⟨valid, clean, edited⟩ := Input.consoleintr_spec lawful.valid lawful.clean typed
  have text : discipline (h.edits ++ s.input.edits typed) =
      (h.taken.map Prod.snd ++ (consoleintr s.input typed).1.unread,
        (consoleintr s.input typed).1.line) := by
    have before := lawful.text
    rw [discipline] at before
    rw [discipline, List.foldl_append, before, edits_append, ← edited]
  obtain ⟨more, extended⟩ := edits_extend (s.input.edits typed) (discipline h.edits)
  have calls : ∀ call ∈ h.calls,
      call.Lawful { h with edits := h.edits ++ s.input.edits typed } := by
    intro call member
    have past := lawful.calls call member
    refine ⟨past.past, past.share, past.fits, past.noEof, past.newline, past.value, past.zero, ?_⟩
    intro ended some
    have kept := past.kept ended some
    rw [discipline, List.foldl_append]
    change (List.foldl Edit.apply (discipline h.edits) _).1[call.stop]? = _
    rw [extended, List.getElem?_append_left (List.getElem?_eq_some_iff.mp kept).1]
    exact kept
  have settled : Lawful { s with input := (consoleintr s.input typed).1 }
      { h with edits := h.edits ++ s.input.edits typed } :=
    ⟨valid, text, clean, fun p target got place =>
      ⟨(lawful.inside p target got place).began, (lawful.inside p target got place).share,
        (lawful.inside p target got place).fits, (lawful.inside p target got place).noEof,
        (lawful.inside p target got place).newline⟩, calls, lawful.eofs⟩
  simp only [step, History.record]
  split
  case isTrue =>
    apply settled.moved
    intro p target got place
    revert place
    cases s.pc p <;> simp
  case isFalse => exact settled

theorem Lawful.call (lawful : s.Lawful h) (p : Fin procs) (target : Nat) :
    (s.step (.call p target)).Lawful (h.record s (.call p target)) := by
  simp only [step, History.record]
  cases place : s.pc p with
  | reading target' got => exact lawful
  | sleeping target' got => exact lawful
  | outside value =>
    refine ⟨lawful.valid, lawful.text, lawful.clean, ?_, ?_, lawful.eofs⟩
    · intro q target' got inside
      by_cases here : q = p
      · subst here
        simp only [setPc, update_self, ReadPlace.reading.injEq, reduceCtorEq,
          or_false] at inside
        obtain ⟨rfl, rfl⟩ := inside
        refine ⟨?_, ?_, Nat.zero_le _, List.not_mem_nil, List.not_mem_nil⟩
        · simp
        · simp [share]
      · simp only [setPc, update_of_ne here] at inside
        have before := lawful.inside q target' got inside
        refine ⟨?_, ?_, before.fits, before.noEof, before.newline⟩
        · simp only [update_of_ne here]
          exact before.began
        · simp only [update_of_ne here]
          exact before.share
    · intro call member
      have past := lawful.calls call member
      exact ⟨past.past, past.share, past.fits, past.noEof, past.newline, past.value, past.zero,
        past.kept⟩

theorem Lawful.kill (lawful : s.Lawful h) (p : Fin procs) :
    (s.step (.kill p)).Lawful (h.record s (.kill p)) := by
  simp only [step, History.record]
  cases place : s.pc p with
  | outside value | reading target got => exact lawful.moved fun _ _ _ inside => inside
  | sleeping target got =>
    apply lawful.moved
    intro q target' got' inside
    by_cases here : q = p
    · subst here
      rw [place]
      simpa [setPc] using inside
    · rwa [update_of_ne here] at inside

section Stretch

variable {p : Fin procs} {target : Nat} {got bytes : List Byte} {after : Input} {ending : ReadEnd}

theorem Lawful.stretch_text (lawful : s.Lawful h) (inCall : InCall h p target got)
    (reads : Input.Reads target (target - got.length) s.input bytes after ending) :
    discipline h.edits =
      ((h.taken ++ (takes got bytes ending).map fun c => (p, c)).map Prod.snd ++ after.unread,
        after.line) := by
  have first : target - got.length = target ↔ got = [] := by
    have fits := inCall.fits
    rw [← List.length_eq_zero_iff]
    omega
  have unread : s.input.unread = takes got bytes ending ++ after.unread := by
    rw [reads.taken, takes]
    simp only [first, List.append_eq_nil_iff, and_comm (a := bytes = [])]
  rw [lawful.text, unread, reads.line, List.map_append, List.map_map]
  simp [comp_def]

theorem stretch_call (inCall : InCall h p target got)
    (reads : Input.Reads target (target - got.length) s.input bytes after ending) :
    share (h.taken ++ (takes got bytes ending).map fun c => (p, c)) p (h.since p)
        (h.taken ++ (takes got bytes ending).map fun c => (p, c)).length =
        takes [] (got ++ bytes) ending ∧
      (got ++ bytes).length ≤ target ∧ control 'D' ∉ got ++ bytes ∧
      newline ∉ if ending = .newline then (got ++ bytes).dropLast else got ++ bytes := by
  have room := reads.fits
  have fits := inCall.fits
  refine ⟨?_, ?_, ?_, ?_⟩
  · rw [share_grows h.taken p p _ inCall.began, inCall.share, if_pos rfl, takes, takes,
      List.append_assoc]
    rfl
  · rw [List.length_append]
    omega
  · rw [List.mem_append, not_or]
    exact ⟨inCall.noEof, reads.noEof⟩
  · have clean := reads.newline
    by_cases last : ending = .newline
    · subst last
      have some : bytes ≠ [] := by
        rintro rfl
        simpa [Input.Because] using reads.reason
      simp only [↓reduceIte] at clean ⊢
      rw [List.dropLast_append_of_ne_nil some, List.mem_append, not_or]
      exact ⟨inCall.newline, clean⟩
    · simp only [last, ↓reduceIte] at clean ⊢
      rw [List.mem_append, not_or]
      exact ⟨inCall.newline, clean⟩

/-- The calls after a stretch: those in progress of other processes, and those that have returned. -/
theorem Lawful.stretch_others (lawful : s.Lawful h) (extra : List Byte)
    (calls : List (ReadCall procs)) :
    (∀ q target got, q ≠ p → s.pc q = .reading target got ∨ s.pc q = .sleeping target got →
      InCall ⟨h.edits, h.taken ++ extra.map fun c => (p, c), h.since, calls⟩ q target got) ∧
    ∀ call ∈ h.calls, call.Lawful
      ⟨h.edits, h.taken ++ extra.map fun c => (p, c), h.since, calls⟩ := by
  constructor
  · intro q target got other place
    have before := lawful.inside q target got place
    refine ⟨?_, ?_, before.fits, before.noEof, before.newline⟩
    · have began := before.began
      simp only [List.length_append]
      omega
    · simp only
      rw [share_grows h.taken q p extra before.began, before.share, if_neg other.symm,
        List.append_nil]
  · intro call member
    have past := lawful.calls call member
    refine ⟨⟨past.past.1, ?_⟩, ?_, past.fits, past.noEof, past.newline, past.value, past.zero,
      past.kept⟩
    · have before := past.past.2
      simp only [List.length_append]
      omega
    · simp only
      rw [share_past _ _ _ _ past.past.2, past.share]

theorem takes_eof {i : Nat} (noEof : control 'D' ∉ bytes)
    (found : (takes got bytes ending)[i]? = some (control 'D')) :
    i = 0 ∧ ending = .eof ∧ got ++ bytes = [] := by
  rw [takes] at found
  by_cases first : ending = .eof ∧ got ++ bytes = []
  · obtain ⟨-, rfl⟩ := List.append_eq_nil_iff.mp first.2
    rw [if_pos first, List.nil_append] at found
    have inside := (List.getElem?_eq_some_iff.mp found).1
    exact ⟨by simpa using inside, first⟩
  · rw [if_neg first, List.append_nil] at found
    exact absurd (List.mem_of_getElem? found) noEof

theorem Lawful.sleeps (lawful : s.Lawful h) (inCall : InCall h p target got)
    (reads : Input.Reads target (target - got.length) s.input bytes after .blocked) :
    Lawful ({ s with input := after }.setPc p (.sleeping target (got ++ bytes)))
      ⟨h.edits, h.taken ++ (takes got bytes .blocked).map fun c => (p, c), h.since, h.calls⟩ := by
  obtain ⟨shared, fits, noEof, clean⟩ := stretch_call inCall reads
  obtain ⟨others, calls⟩ := lawful.stretch_others (p := p) (takes got bytes .blocked)
    h.calls
  refine ⟨reads.valid, lawful.stretch_text inCall reads, ?_, ?_, calls, ?_⟩
  · show newline ∉ after.line
    rw [reads.line]
    exact lawful.clean
  · intro q target' got' place
    by_cases here : q = p
    · subst here
      simp only [setPc, update_self, reduceCtorEq, ReadPlace.sleeping.injEq,
        false_or] at place
      obtain ⟨rfl, rfl⟩ := place
      have began := inCall.began
      refine ⟨?_, ?_, fits, noEof, clean⟩
      · simp only [List.length_append]
        omega
      · simpa [takes] using shared
    · apply others q target' got' here
      simpa only [setPc, update_of_ne here] using place
  · intro i q found
    by_cases old : i < h.taken.length
    · rw [List.getElem?_append_left old] at found
      exact lawful.eofs i q found
    · rw [List.getElem?_append_right (by omega), List.getElem?_map, Option.map_eq_some_iff] at found
      obtain ⟨c, taken, same⟩ := found
      obtain ⟨-, rfl⟩ := Prod.mk.inj same
      simpa using (takes_eof reads.noEof taken).2.1

/-- A call with room for a character returns 0 exactly when a `C('D')` came first. -/
theorem returns_zero (room : 0 < target) (inCall : InCall h p target got)
    (reads : Input.Reads target (target - got.length) s.input bytes after ending) {value : Int}
    (valued : value = if ending = .blocked then -1 else ((got ++ bytes).length : Int)) :
    value = 0 ↔ ending = .eof ∧ got ++ bytes = [] := by
  have fits := inCall.fits
  have reason := reads.reason
  rw [valued]
  cases ending with
  | blocked => simp
  | eof =>
    rw [← List.length_eq_zero_iff]
    simp only [reduceCtorEq, ↓reduceIte, true_and]
    exact Int.natCast_eq_zero
  | full =>
    simp only [Input.Because] at reason
    simp only [reduceCtorEq, ↓reduceIte, false_and, iff_false, List.length_append]
    omega
  | newline =>
    simp only [Input.Because] at reason
    have some : 0 < bytes.length := by
      rw [List.length_pos_iff]
      rintro rfl
      simp at reason
    simp only [reduceCtorEq, ↓reduceIte, false_and, iff_false, List.length_append]
    omega

theorem Lawful.returns (lawful : s.Lawful h) (inCall : InCall h p target got)
    (reads : Input.Reads target (target - got.length) s.input bytes after ending) {value : Int}
    (valued : value = if ending = .blocked then -1 else ((got ++ bytes).length : Int)) :
    Lawful ({ s with input := after }.setPc p (.outside value))
      ⟨h.edits, h.taken ++ (takes got bytes ending).map fun c => (p, c), h.since, h.calls ++
        [⟨p, target, got ++ bytes, ending, value, h.since p,
          (h.taken ++ (takes got bytes ending).map fun c => (p, c)).length⟩]⟩ := by
  have text := lawful.stretch_text inCall reads
  obtain ⟨shared, fits, noEof, clean⟩ := stretch_call inCall reads
  generalize new : (⟨p, target, got ++ bytes, ending, value, h.since p,
    (h.taken ++ (takes got bytes ending).map fun c => (p, c)).length⟩ : ReadCall procs) = call
  obtain ⟨others, calls⟩ := lawful.stretch_others (p := p) (takes got bytes ending)
    (h.calls ++ [call])
  have began := inCall.began
  refine ⟨reads.valid, text, ?_, ?_, ?_, ?_⟩
  · show newline ∉ after.line
    rw [reads.line]
    exact lawful.clean
  · intro q target' got' place
    by_cases here : q = p
    · subst here
      simp [setPc] at place
    · apply others q target' got' here
      simpa only [setPc, update_of_ne here] using place
  · intro call' member
    rcases List.mem_append.mp member with old | last
    · exact calls call' old
    · obtain rfl := List.mem_singleton.mp last
      subst new
      refine ⟨⟨?_, le_rfl⟩, shared, fits, noEof, clean, valued, ?_, ?_⟩
      · simp only [List.length_append]
        omega
      · exact fun room => returns_zero room inCall reads valued
      · intro ended some
        have next := reads.reason
        simp only at ended
        rw [ended] at next
        have head := next.resolve_left (by
          rintro ⟨rfl, all⟩
          have before : got.length ≤ target := inCall.fits
          have none : got.length = 0 := by omega
          exact some (by simp [List.length_eq_zero_iff.mp none]))
        simp only
        rw [text, List.getElem?_append_right (by simp), List.length_map, Nat.sub_self,
          ← List.head?_eq_getElem?]
        exact head
  · intro i q found
    by_cases old : i < h.taken.length
    · rw [List.getElem?_append_left old] at found
      obtain ⟨call', member, facts⟩ := lawful.eofs i q found
      exact ⟨call', List.mem_append_left _ member, facts⟩
    · rw [List.getElem?_append_right (by omega), List.getElem?_map, Option.map_eq_some_iff] at found
      obtain ⟨c, taken, same⟩ := found
      cases same
      obtain ⟨first, rfl, empty⟩ := takes_eof reads.noEof taken
      refine ⟨call, List.mem_append_right _ (List.mem_singleton_self _), ?_⟩
      subst new
      refine ⟨rfl, by simp only; omega, ?_, empty, rfl, ?_⟩
      · have used : takes got bytes .eof = [control 'D'] := by
          rw [takes, if_pos ⟨rfl, empty⟩, (List.append_eq_nil_iff.mp empty).2]
          rfl
        simp only [used, List.length_append, List.map_cons, List.map_nil, List.length_singleton]
        omega
      · rw [valued, empty]
        rfl

end Stretch

theorem Lawful.resume (lawful : s.Lawful h) (p : Fin procs) :
    (s.step (.resume p)).Lawful (h.record s (.resume p)) := by
  cases place : s.pc p with
  | outside value | sleeping target got =>
    simp only [step, History.record, place]
    exact lawful
  | reading target got =>
    have inCall := lawful.inside p target got (.inl place)
    have reads := Input.readLoop_spec target lawful.valid (Nat.sub_le target got.length)
    simp only [step, History.record, place, consoleread]
    generalize readLoop target (target - got.length) s.input = result at reads ⊢
    obtain ⟨bytes, after, ending⟩ := result
    simp only at reads ⊢
    have place' : ∀ (console : Console procs) (where' : ReadPlace),
        (console.setPc p where').pc p = where' := by
      intro console where'
      simp [setPc]
    cases ending with
    | blocked =>
      cases dead : s.killed p with
      | false =>
        simp only [Bool.false_eq_true, ↓reduceIte, place']
        exact lawful.sleeps inCall reads
      | true =>
        simp only [↓reduceIte, place']
        exact lawful.returns inCall reads rfl
    | full | newline | eof =>
      simp only [place']
      exact lawful.returns inCall reads rfl

theorem Lawful.step (lawful : s.Lawful h) (event : ConsoleEvent procs) :
    (s.step event).Lawful (h.record s event) := by
  cases event with
  | interrupt typed => exact lawful.interrupt typed
  | call p target => exact lawful.call p target
  | resume p => exact lawful.resume p
  | kill p => exact lawful.kill p

theorem start_chars : (Console.start procs).input.chars = [] := by
  simp [start, Input.chars, Input.ring, Ring.contents, Ring.count]

theorem start_lawful : Lawful (Console.start procs) ⟨[], [], fun _ => 0, []⟩ where
  valid := ⟨le_rfl, by rw [← Input.length_chars, start_chars]; exact Nat.zero_le _⟩
  text := by rw [Input.unread, Input.line, start_chars, List.take_nil, List.drop_nil]; rfl
  clean := by rw [Input.line, start_chars, List.drop_nil]; exact List.not_mem_nil
  inside p target got place := by simp [start] at place
  calls call member := by simp at member
  eofs i p found := by simp at found

end Console

end MemoryEncryption
