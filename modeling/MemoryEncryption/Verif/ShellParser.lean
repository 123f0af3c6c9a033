import MemoryEncryption.Verif.ShellGrammar
import Mathlib.Data.List.Forall2
import Mathlib.Data.List.Induction
import Mathlib.Data.List.TakeWhile

/-!
# The parser of the shell reads its grammar

The cursor of the parser of `sh.c` is at a place of the line, and what matters of that
place is the list of tokens from there on. `peek` tells the first one and `gettoken` takes
it, so each parsing function agrees with the parser of tokens, by induction on how deep
the calls may nest. `nulterminate` writes after words only, where no word has a character.
-/

namespace MemoryEncryption

variable {c : Byte} {token symbol : Token} {string : Nat → Nat → List Byte → Prop} {rounds : Nat}
  {redirs : List Redirection}

namespace Shell

open Outcome

variable {buf : List Byte} {s : Nat} {tokens rest : List Token}

/-! ## The cursor -/

/-- The line in a buffer. -/
def text (buf : List Byte) : List Byte := buf.takeWhile (· ≠ 0)

theorem ne_zero_of_mem_text (member : c ∈ text buf) : c ≠ 0 := by
  have holds := List.mem_takeWhile_imp member
  exact of_decide_eq_true holds

theorem strlen_lt (terminated : 0 ∈ buf) : strlen buf < buf.length := by
  have before : text buf <+: buf := List.takeWhile_prefix _
  refine Nat.lt_of_le_of_ne before.length_le fun whole => ?_
  rw [← before.eq_of_length whole] at terminated
  exact ne_zero_of_mem_text terminated rfl

theorem charAt_eq (bound : s ≤ strlen buf) : charAt buf s = (text buf)[s]?.getD 0 := by
  induction buf generalizing s with
  | nil => rfl
  | cons c buf ih =>
    by_cases zero : c = 0
    · have empty : text (c :: buf) = [] := List.takeWhile_cons_of_neg (by simp [zero])
      have first : s = 0 := by
        have none : strlen (c :: buf) = 0 := congrArg List.length empty
        omega
      rw [empty, first, zero]
      rfl
    · have more : text (c :: buf) = c :: text buf := List.takeWhile_cons_of_pos (by simpa using zero)
      have longer : strlen (c :: buf) = strlen buf + 1 := congrArg List.length more
      rw [more]
      cases s with
      | zero => rfl
      | succ s => exact ih (by omega)

/-- The loop that skips characters stops at the first one that it does not skip. -/
theorem skipWhile_eq (test : Byte → Bool) (left : Nat) (upTo : s + left = strlen buf) :
    skipWhile test buf left s ≤ strlen buf ∧
      (text buf).drop (skipWhile test buf left s) = ((text buf).drop s).dropWhile test := by
  induction left generalizing s with
  | zero =>
    have none : (text buf).drop s = [] := List.drop_eq_nil_of_le (Nat.le_of_eq upTo.symm)
    rw [skipWhile, none]
    exact ⟨by omega, rfl⟩
  | succ left ih =>
    have inside : s < (text buf).length := by
      show s < strlen buf
      omega
    have char : charAt buf s = (text buf)[s] := by
      rw [charAt_eq (by omega), List.getElem?_eq_getElem inside]
      rfl
    rw [List.drop_eq_getElem_cons inside, skipWhile, char]
    split
    case isTrue skips =>
      rw [List.dropWhile_cons_of_pos skips]
      exact ih (by omega)
    case isFalse stops =>
      rw [List.dropWhile_cons_of_neg stops]
      exact ⟨by omega, List.drop_eq_getElem_cons inside⟩

/-- The tokens from the cursor on. -/
structure Ahead (buf : List Byte) (s : Nat) (tokens : List Token) : Prop where
  bound : s ≤ strlen buf
  lexed : lex ((text buf).drop s) = tokens

theorem lex_dropWhile (line : List Byte) : lex (line.dropWhile isSpace) = lex line := by
  induction line with
  | nil => rfl
  | cons c line ih =>
    by_cases space : isSpace c = true
    · rw [List.dropWhile_cons_of_pos space, ih, lex, if_pos space]
    · rw [List.dropWhile_cons_of_neg space]

theorem length_lex_le (line : List Byte) : (lex line).length ≤ line.length := by
  fun_induction lex line with
  | case1 => exact Nat.le_refl _
  | case2 c rest space ih =>
    rw [List.length_cons]
    omega
  | case3 c rest text ih =>
    have shorter := length_firstToken c rest
    simp only [List.length_cons]
    omega

theorem Ahead.length_le (ahead : Ahead buf s tokens) : tokens.length ≤ strlen buf - s := by
  rw [← ahead.lexed]
  refine Nat.le_trans (length_lex_le _) ?_
  rw [List.length_drop]
  exact Nat.le_refl _

theorem Ahead.skip (ahead : Ahead buf s tokens) :
    let next := skipWhile isSpace buf (strlen buf - s) s
    Ahead buf next tokens ∧ (text buf).drop next = ((text buf).drop s).dropWhile isSpace := by
  have bound := ahead.bound
  have upTo : s + (strlen buf - s) = strlen buf := by omega
  obtain ⟨inside, skipped⟩ := skipWhile_eq isSpace (strlen buf - s) upTo
  refine ⟨⟨inside, ?_⟩, skipped⟩
  rw [skipped, lex_dropWhile]
  exact ahead.lexed

/-- The symbol that a token starts with. -/
def Token.lead : Token → Option Byte
  | .word _ => none
  | .redir .input => some (byte '<')
  | .redir .output => some (byte '>')
  | .redir .append => some (byte '>')
  | .bar => some (byte '|')
  | .amp => some (byte '&')
  | .semi => some (byte ';')
  | .left => some (byte '(')
  | .right => some (byte ')')

/-- What `gettoken` returns for a token. -/
def Token.code : Token → Byte
  | .word _ => byte 'a'
  | .redir .input => byte '<'
  | .redir .output => byte '>'
  | .redir .append => byte '+'
  | .bar => byte '|'
  | .amp => byte '&'
  | .semi => byte ';'
  | .left => byte '('
  | .right => byte ')'

/-- One of the characters is the first one of the first token. -/
def leads (chars : List Byte) : List Token → Bool
  | [] => false
  | token :: _ => token.lead.any fun c => chars.contains c

theorem symbolToken_some (found : symbolToken c = some token) :
    c ∈ [byte '|', byte '(', byte ')', byte ';', byte '&', byte '<'] ∧ token.code = c ∧
      token.lead = some c ∧ c ∈ symbols ∧ ∀ word, token ≠ .word word := by
  unfold symbolToken at found
  split_ifs at found with same same same same same same <;> cases found <;> subst same <;>
    exact ⟨by decide, rfl, rfl, by decide, nofun⟩

theorem symbolToken_none (missing : symbolToken c = none) :
    c ∉ [byte '|', byte '(', byte ')', byte ';', byte '&', byte '<'] := by
  unfold symbolToken at missing
  split_ifs at missing with isBar isLeft isRight isSemi isAmp isInput
  simp only [List.mem_cons, List.not_mem_nil]
  tauto

theorem notMem_symbols (missing : symbolToken c = none) (other : c ≠ byte '>') : c ∉ symbols := by
  have notListed := symbolToken_none missing
  simp only [symbols, List.mem_cons, List.not_mem_nil] at notListed ⊢
  tauto

theorem isWord_iff : isWord c = true ↔ isSpace c = false ∧ c ∉ symbols := by
  simp [isWord, isSpace]

/-- The first token starts with the first character if that is a symbol, and is a word if not. -/
theorem lead_firstToken (c : Byte) (line : List Byte) :
    (firstToken c line).1.lead = if c ∈ symbols then some c else none := by
  unfold firstToken
  cases found : symbolToken c with
  | some token =>
    obtain ⟨_, _, lead, symbol, _⟩ := symbolToken_some found
    simp only [lead, if_pos symbol]
  | none =>
    by_cases output : c = byte '>'
    · subst output
      rw [if_pos (by decide)]
      simp only
      split <;> rfl
    · simp only [if_neg output, if_neg (notMem_symbols found output), Token.lead]

/-- What is at a cursor that is not at whitespace. -/
structure Front (buf : List Byte) (s : Nat) (c : Byte) (line : List Byte) : Prop where
  rest : (text buf).drop s = c :: line
  mark : isSpace c = false
  inside : s < strlen buf
  nonzero : c ≠ 0
  char : charAt buf s = c

/-- After whitespace is the end of the line, or a token. -/
theorem Ahead.front (ahead : Ahead buf s tokens) :
    let next := skipWhile isSpace buf (strlen buf - s) s
    (tokens = [] ∧ next = strlen buf ∧ charAt buf next = 0) ∨
      ∃ c line, Front buf next c line ∧
        tokens = (firstToken c line).1 :: lex (firstToken c line).2 := by
  obtain ⟨⟨bound, lexed⟩, skipped⟩ := ahead.skip
  intro next
  cases rest : (text buf).drop next with
  | nil =>
    have last : next = strlen buf := Nat.le_antisymm bound (List.drop_eq_nil_iff.mp rest)
    refine .inl ⟨?_, last, ?_⟩
    · rw [← lexed, rest, lex]
    · have none : (text buf)[strlen buf]? = none := List.getElem?_eq_none (Nat.le_refl _)
      rw [last, charAt_eq (Nat.le_refl _), none]
      rfl
  | cons c line =>
    have mark : isSpace c = false := by
      have head := List.head?_dropWhile_not isSpace ((text buf).drop s)
      rw [← skipped, rest] at head
      simpa using head
    have inside : next < strlen buf := by
      by_contra past
      have none : (text buf).drop next = [] := List.drop_eq_nil_of_le (Nat.le_of_not_lt past)
      rw [none] at rest
      cases rest
    have member : c ∈ text buf := List.mem_of_mem_drop (rest ▸ List.mem_cons_self)
    have char : charAt buf next = c := by
      rw [charAt_eq bound, ← List.head?_drop, rest]
      rfl
    refine .inr ⟨c, line, ⟨rest, mark, inside, ne_zero_of_mem_text member, char⟩, ?_⟩
    rw [← lexed, rest, lex, mark]
    rfl

theorem Ahead.peek (ahead : Ahead buf s tokens) {chars : List Byte} (only : chars ⊆ symbols) :
    ∃ next, Shell.peek buf (strlen buf) s chars = (next, leads chars tokens) ∧
      Ahead buf next tokens ∧ (next = strlen buf ↔ tokens = []) := by
  obtain ⟨after, _⟩ := ahead.skip
  rcases ahead.front with ⟨none, last, zero⟩ | ⟨c, line, front, first⟩
  · refine ⟨_, Prod.ext rfl ?_, after, iff_of_true last none⟩
    simp [Shell.peek, zero, none, leads]
  · refine ⟨_, Prod.ext rfl ?_, after, iff_of_false (Nat.ne_of_lt front.inside) (by simp [first])⟩
    simp only [Shell.peek, front.char, first, leads, lead_firstToken]
    by_cases symbol : c ∈ symbols
    · simpa [symbol] using fun _ => front.nonzero
    · have absent : c ∉ chars := fun member => symbol (only member)
      simp [symbol, absent]

/-- A word of the line, from its first character to one past its last one. -/
structure Span (buf : List Byte) (q eq : Nat) (word : List Byte) : Prop where
  here : (text buf).drop q = word ++ (text buf).drop eq
  long : eq = q + word.length
  bound : eq ≤ strlen buf
  chars : ∀ c ∈ word, isWord c = true
  maximal : ∀ c ∈ (text buf)[eq]?, isWord c = false

/-- The loop over the characters of a word finds where the word ends. -/
theorem Front.span {line : List Byte} (front : Front buf s c line) (plain : c ∉ symbols) :
    Span buf s (skipWhile isWord buf (strlen buf - s) s) (c :: line.takeWhile isWord) ∧
      (text buf).drop (skipWhile isWord buf (strlen buf - s) s) = line.dropWhile isWord := by
  have inside := front.inside
  have upTo : s + (strlen buf - s) = strlen buf := by omega
  have first : isWord c = true := isWord_iff.mpr ⟨front.mark, plain⟩
  obtain ⟨bound, skipped⟩ := skipWhile_eq isWord (strlen buf - s) upTo
  generalize skipWhile isWord buf (strlen buf - s) s = e at bound skipped ⊢
  have word : (c :: line).takeWhile isWord = c :: line.takeWhile isWord :=
    List.takeWhile_cons_of_pos first
  have here : (text buf).drop s = (c :: line).takeWhile isWord ++ (text buf).drop e := by
    rw [skipped, front.rest, List.takeWhile_append_dropWhile]
  rw [← word]
  refine ⟨⟨here, ?_, bound, fun d member => List.mem_takeWhile_imp member, ?_⟩, ?_⟩
  · have lengths := congrArg List.length here
    rw [List.length_append, List.length_drop, List.length_drop] at lengths
    have whole : strlen buf = (text buf).length := rfl
    omega
  · intro d at_end
    have head := List.head?_dropWhile_not isWord ((text buf).drop s)
    rw [← skipped, List.head?_drop, Option.mem_def.mp at_end] at head
    simpa using head
  · rw [skipped, front.rest, List.dropWhile_cons_of_pos first]

theorem Front.classify {line : List Byte} (front : Front buf s c line) :
    ∃ e ≤ strlen buf, classify buf (strlen buf) s = ((firstToken c line).1.code, e) ∧
      (text buf).drop e = (firstToken c line).2 ∧
      ∀ word, (firstToken c line).1 = .word word → Span buf s e word := by
  have inside := front.inside
  have next : (text buf).drop (s + 1) = line := by
    rw [← List.drop_drop, front.rest]
    rfl
  unfold Shell.classify firstToken
  simp only [front.char]
  rw [if_neg front.nonzero]
  cases found : symbolToken c with
  | some token =>
    obtain ⟨listed, code, _, _, notWord⟩ := symbolToken_some found
    exact ⟨s + 1, inside, by rw [if_pos listed, code], next, fun word same => absurd same (notWord word)⟩
  | none =>
    rw [if_neg (symbolToken_none found)]
    by_cases output : c = byte '>'
    · have peeked : charAt buf (s + 1) = byte '>' ↔ line.head? = some (byte '>') := by
        rw [charAt_eq inside, ← List.head?_drop, next]
        cases line with
        | nil => decide
        | cons d line => simp
      simp only [if_pos output]
      by_cases double : charAt buf (s + 1) = byte '>'
      · rw [if_pos double, if_pos (peeked.mp double)]
        have more : s + 1 < strlen buf := by
          by_contra past
          have none : (text buf).drop (s + 1) = [] := List.drop_eq_nil_of_le (Nat.le_of_not_lt past)
          rw [← next, none] at peeked
          exact absurd (peeked.mp double) (by simp)
        refine ⟨s + 2, more, rfl, ?_, nofun⟩
        rw [← next, List.tail_drop]
      · rw [if_neg double, if_neg (mt peeked.mpr double), output]
        exact ⟨s + 1, inside, rfl, next, nofun⟩
    · obtain ⟨span, after⟩ := front.span (notMem_symbols found output)
      simp only [if_neg output]
      refine ⟨_, span.bound, rfl, after, ?_⟩
      rintro word ⟨rfl⟩
      exact span

theorem Ahead.gettoken (ahead : Ahead buf s (token :: tokens)) :
    (gettoken buf (strlen buf) s).ret = token.code ∧
      Ahead buf (gettoken buf (strlen buf) s).ps tokens ∧
      ∀ word, token = .word word →
        Span buf (gettoken buf (strlen buf) s).q (gettoken buf (strlen buf) s).eq word := by
  rcases ahead.front with ⟨none, _⟩ | ⟨c, line, front, first⟩
  · cases none
  cases first
  obtain ⟨e, bound, found, after, span⟩ := front.classify
  have next : Ahead buf e (lex (firstToken c line).2) := ⟨bound, by rw [after]⟩
  simp only [Shell.gettoken, found, true_and]
  exact ⟨next.skip.1, span⟩

theorem Ahead.gettoken_nil (ahead : Ahead buf s []) :
    (Shell.gettoken buf (strlen buf) s).ret = 0 ∧
      Ahead buf (Shell.gettoken buf (strlen buf) s).ps [] := by
  obtain ⟨after, _⟩ := ahead.skip
  rcases ahead.front with ⟨_, _, zero⟩ | ⟨c, line, _, first⟩
  · have ends : classify buf (strlen buf) (skipWhile isSpace buf (strlen buf - s) s) =
        (0, skipWhile isSpace buf (strlen buf - s) s) := by
      simp [classify, zero]
    simp only [Shell.gettoken, ends, true_and]
    exact after.skip.1
  · cases first

/-! ## Commands and their trees -/

/-- The mode in which the file of a redirection is opened. -/
def RedirOp.mode : RedirOp → Nat
  | .input => oRdonly
  | .output => oWronlyCreate
  | .append => oWronlyCreate

/-- The file descriptor of a redirection. -/
def RedirOp.fd : RedirOp → Nat
  | .input => 0
  | .output => 1
  | .append => 1

/-- A command is that of a tree, with its strings related to the words. -/
inductive Shows (string : Nat → Nat → List Byte → Prop) : Cmd → Tree → Prop where
  /-- A program with its arguments. -/
  | exec {argv : List (Nat × Nat)} {words : List (List Byte)}
      (strings : List.Forall₂ (fun arg word => string arg.1 arg.2 word) argv words) :
      Shows string (.exec argv) (.exec words)
  /-- A redirection. -/
  | redir {cmd : Cmd} {tree : Tree} {file efile : Nat} {op : RedirOp} {word : List Byte}
      (inner : Shows string cmd tree) (name : string file efile word) :
      Shows string (.redir cmd file efile op.mode op.fd) (.redir tree ⟨op, word⟩)
  /-- A pipeline. -/
  | pipe {left right : Cmd} {first second : Tree} (front : Shows string left first)
      (tail : Shows string right second) : Shows string (.pipe left right) (.pipe first second)
  /-- A list. -/
  | list {left right : Cmd} {first second : Tree} (front : Shows string left first)
      (tail : Shows string right second) : Shows string (.list left right) (.list first second)
  /-- A command in the background. -/
  | back {cmd : Cmd} {tree : Tree} (inner : Shows string cmd tree) :
      Shows string (.back cmd) (.back tree)

theorem Shows.addArg {cmd : Cmd} {q eq : Nat} {words : List (List Byte)} {word : List Byte}
    (redirs : List Redirection) (before : Shows string cmd (redirs.foldl .redir (.exec words)))
    (name : string q eq word) :
    Shows string (cmd.addArg q eq) (redirs.foldl .redir (.exec (words ++ [word]))) := by
  induction redirs using List.reverseRecOn generalizing cmd with
  | nil =>
    cases before with
    | exec strings => exact .exec (List.rel_append strings (.cons name .nil))
  | append_singleton redirs redir ih =>
    rw [List.foldl_append] at before ⊢
    cases before with
    | redir inner file => exact .redir (ih inner) file

/-! ## Agreement with the parser of tokens -/

variable {cmd : Cmd} {tree : Tree}

/-- A function of the parser returns the tree of what the parser of tokens finds, if it fits, and
gives up with a message otherwise. -/
def Agrees {α : Type} (buf : List Byte) (fits : α → Prop) (trees : α → Tree)
    (parsed : Option (α × List Token)) (result : Except Halt (Cmd × Nat)) : Prop :=
  (∃ found rest cmd next, parsed = some (found, rest) ∧ fits found ∧ result = .ok (cmd, next) ∧
    Ahead buf next rest ∧ Shows (Span buf) cmd (trees found)) ∨
  ((∀ found rest, parsed = some (found, rest) → ¬ fits found) ∧
    ∃ message, result = .error (.panic message))

namespace Agrees

variable {α β : Type} {fits : α → Prop} {fits' : β → Prop} {trees : α → Tree} {trees' : β → Tree}
  {parsed : Option (α × List Token)} {result : Except Halt (Cmd × Nat)}

theorem ok {found : α} (fit : fits found) (ahead : Ahead buf s tokens)
    (shown : Shows (Span buf) cmd (trees found)) :
    Agrees buf fits trees (some (found, tokens)) (.ok (cmd, s)) :=
  .inl ⟨found, tokens, cmd, s, rfl, fit, rfl, ahead, shown⟩

theorem stop {message : String} : Agrees buf fits trees none (.error (.panic message)) :=
  .inr ⟨nofun, message, rfl⟩

/-- Agreement goes through a sequence, when what it finds fits only if its first part does. -/
theorem bind {f : α × List Token → Option (β × List Token)}
    {g : Cmd × Nat → Except Halt (Cmd × Nat)} (first : Agrees buf fits trees parsed result)
    (inherits : ∀ found rest other last, f (found, rest) = some (other, last) → fits' other →
      fits found)
    (next : ∀ found rest cmd s, parsed = some (found, rest) → fits found → Ahead buf s rest →
      Shows (Span buf) cmd (trees found) → Agrees buf fits' trees' (f (found, rest)) (g (cmd, s))) :
    Agrees buf fits' trees' (parsed >>= f) (result >>= g) := by
  rcases first with ⟨found, rest, cmd, s, rfl, fit, rfl, ahead, shown⟩ | ⟨misfit, message, rfl⟩
  · exact next found rest cmd s rfl fit ahead shown
  · refine .inr ⟨?_, message, rfl⟩
    intro other last second fit
    obtain ⟨⟨found, rest⟩, taken, second⟩ := Option.bind_eq_some_iff.mp second
    exact misfit found rest taken (inherits found rest other last second fit)

/-- Agreement goes through a change of what is found. -/
theorem map {f : α → β} (first : Agrees buf fits trees parsed result)
    (fit : ∀ found, fits' (f found) ↔ fits found) (same : ∀ found, trees' (f found) = trees found) :
    Agrees buf fits' trees' (parsed >>= fun found => some (f found.1, found.2)) result := by
  rcases first with ⟨found, rest, cmd, s, rfl, here, rfl, ahead, shown⟩ | ⟨misfit, message, rfl⟩
  · exact .ok ((fit found).mpr here) ahead (by rwa [same])
  · refine .inr ⟨?_, message, rfl⟩
    intro other last second fits
    obtain ⟨⟨found, rest⟩, taken, second⟩ := Option.bind_eq_some_iff.mp second
    cases second
    exact misfit found rest taken ((fit found).mp fits)

end Agrees

/-! ## Redirections and words -/

theorem leads_redir :
    leads [byte '<', byte '>'] tokens = true ↔ ∃ op more, tokens = .redir op :: more := by
  cases tokens with
  | nil => exact iff_of_false nofun nofun
  | cons token more =>
    cases token with
    | redir op => exact iff_of_true (by cases op <;> rfl) ⟨op, more, rfl⟩
    | _ => exact iff_of_false (Bool.eq_false_iff.mp rfl) nofun

theorem code_eq_word : token.code = byte 'a' ↔ ∃ word, token = .word word := by
  cases token with
  | word word => exact iff_of_true rfl ⟨word, rfl⟩
  | redir op => cases op <;> exact iff_of_false (by decide) nofun
  | _ => exact iff_of_false (by decide) nofun

theorem Ahead.redirLoop_stop (ahead : Ahead buf s tokens) (starts : Starts Token.NotRedir tokens)
    (rounds : Nat) (cmd : Cmd) :
    ∃ next, redirLoop buf (strlen buf) (rounds + 1) cmd s = .ok (cmd, next) ∧
      Ahead buf next tokens := by
  obtain ⟨next, peeked, after, _⟩ := ahead.peek (show [byte '<', byte '>'] ⊆ symbols by decide)
  have none : leads [byte '<', byte '>'] tokens = false := by
    rw [Bool.eq_false_iff, ne_eq, leads_redir]
    rintro ⟨op, more, rfl⟩
    exact starts_cons.mp starts op rfl
  refine ⟨next, ?_, after⟩
  rw [redirLoop, peeked, none]
  rfl

theorem Ahead.redirLoop_step {op : RedirOp} {file : List Byte}
    (ahead : Ahead buf s (.redir op :: .word file :: tokens)) (rounds : Nat)
    (before : Shows (Span buf) cmd tree) :
    ∃ cmd' next, redirLoop buf (strlen buf) (rounds + 1) cmd s =
        redirLoop buf (strlen buf) rounds cmd' next ∧
      Ahead buf next tokens ∧ Shows (Span buf) cmd' (.redir tree ⟨op, file⟩) := by
  obtain ⟨next, peeked, here, _⟩ := ahead.peek (show [byte '<', byte '>'] ⊆ symbols by decide)
  have found : leads [byte '<', byte '>'] (.redir op :: .word file :: tokens) = true :=
    leads_redir.mpr ⟨op, _, rfl⟩
  obtain ⟨opCode, middle, _⟩ := here.gettoken
  obtain ⟨fileCode, after, span⟩ := middle.gettoken
  refine ⟨.redir cmd _ _ op.mode op.fd, _, ?_, after, .redir before (span file rfl)⟩
  rw [redirLoop, peeked, found]
  simp only [fileCode, opCode, if_true, Token.code, ne_eq, not_true_eq_false, if_false]
  cases op <;> rfl

/-- The loop of `parseredirs` gives up when no word follows. -/
theorem Ahead.redirLoop_panic {op : RedirOp} (ahead : Ahead buf s (.redir op :: tokens))
    (missing : Starts (fun token => ∀ word, token ≠ .word word) tokens) (rounds : Nat) :
    redirLoop buf (strlen buf) (rounds + 1) cmd s =
      .error (.panic "missing file for redirection") := by
  obtain ⟨next, peeked, here, _⟩ := ahead.peek (show [byte '<', byte '>'] ⊆ symbols by decide)
  have found : leads [byte '<', byte '>'] (.redir op :: tokens) = true :=
    leads_redir.mpr ⟨op, _, rfl⟩
  obtain ⟨_, middle, _⟩ := here.gettoken
  have noWord : (Shell.gettoken buf (strlen buf)
      (Shell.gettoken buf (strlen buf) next).ps).ret ≠ byte 'a' := by
    cases tokens with
    | nil =>
      rw [middle.gettoken_nil.1]
      decide
    | cons token more =>
      rw [middle.gettoken.1, ne_eq, code_eq_word]
      rintro ⟨word, same⟩
      exact starts_cons.mp missing word same
  rw [redirLoop, peeked, found]
  simp only [if_true, if_pos noWord]

/-- `parseredirs` takes the redirections that come first. -/
theorem Ahead.redirLoop_agrees (ahead : Ahead buf s tokens) (enough : tokens.length < rounds)
    (before : Shows (Span buf) cmd tree) :
    Agrees buf (fun _ => True) (fun redirs => redirs.foldl .redir tree) (takeRedirs tokens)
      (redirLoop buf (strlen buf) rounds cmd s) := by
  obtain ⟨rounds, rfl⟩ := Nat.exists_eq_succ_of_ne_zero (by omega : rounds ≠ 0)
  fun_induction takeRedirs tokens generalizing s rounds cmd tree with
  | case1 op file rest ih =>
    obtain ⟨cmd', next, stepped, after, shown⟩ := ahead.redirLoop_step rounds before
    simp only [List.length_cons] at enough
    obtain ⟨rounds, rfl⟩ := Nat.exists_eq_succ_of_ne_zero (by omega : rounds ≠ 0)
    rw [stepped]
    exact (ih after shown rounds (by omega)).map (fun _ => Iff.rfl) fun _ => rfl
  | case2 op rest other =>
    have missing : Starts (fun token => ∀ word, token ≠ .word word) rest := by
      cases rest with
      | nil => exact starts_nil
      | cons token rest => exact starts_cons.mpr fun word same => other word rest (by rw [same])
    rw [ahead.redirLoop_panic missing rounds]
    exact .stop
  | case3 tokens _ other =>
    have starts : Starts Token.NotRedir tokens := by
      cases tokens with
      | nil => exact starts_nil
      | cons token rest => exact starts_cons.mpr fun op same => other op rest (by rw [same])
    obtain ⟨next, stopped, after⟩ := ahead.redirLoop_stop starts rounds cmd
    rw [stopped]
    exact .ok trivial after before

theorem Ahead.parseredirs_agrees (ahead : Ahead buf s tokens)
    (before : Shows (Span buf) cmd tree) :
    Agrees buf (fun _ => True) (fun redirs => redirs.foldl .redir tree) (takeRedirs tokens)
      (parseredirs buf (strlen buf) cmd s) :=
  ahead.redirLoop_agrees (Nat.lt_succ_of_le ahead.length_le) before

theorem leads_after : leads [byte '|', byte ')', byte '&', byte ';'] tokens = true ↔
    ∃ token more, tokens = token :: more ∧ Nonterminal.exec.After token := by
  cases tokens with
  | nil => exact iff_of_false nofun nofun
  | cons token more =>
    cases token with
    | bar | amp | semi | right => exact iff_of_true rfl ⟨_, more, rfl, by simp [Nonterminal.After]⟩
    | redir op =>
      refine iff_of_false (by cases op <;> exact Bool.eq_false_iff.mp rfl) ?_
      rintro ⟨_, _, ⟨rfl, rfl⟩, after⟩
      simp [Nonterminal.After] at after
    | word _ | left =>
      refine iff_of_false (Bool.eq_false_iff.mp rfl) ?_
      rintro ⟨_, _, ⟨rfl, rfl⟩, after⟩
      simp [Nonterminal.After] at after

/-- The tree of a program with words and redirections, after others. -/
def argTree (redirs : List Redirection) (words : List (List Byte))
    (args : List (List Byte × List Redirection)) : Tree :=
  (redirs ++ args.flatMap fun arg => arg.2).foldl .redir (.exec (words ++ args.map fun arg => arg.1))

theorem Ahead.argLoop_stop {argc : Nat} {words : List (List Byte)} (ahead : Ahead buf s tokens)
    (starts : Starts Nonterminal.exec.After tokens) (rounds : Nat) (room : argc ≤ maxArgs - 1)
    (before : Shows (Span buf) cmd (redirs.foldl .redir (.exec words))) :
    Agrees buf (fun args => argc + args.length ≤ maxArgs - 1) (argTree redirs words)
      (some ([], tokens)) (argLoop buf (strlen buf) (rounds + 1) cmd argc s) := by
  obtain ⟨next, peeked, after, _⟩ :=
    ahead.peek (show [byte '|', byte ')', byte '&', byte ';'] ⊆ symbols by decide)
  rw [argLoop, peeked]
  have shown : Shows (Span buf) cmd (argTree redirs words []) := by simpa [argTree] using before
  cases tokens with
  | nil =>
    obtain ⟨zero, ends⟩ := after.gettoken_nil
    simp only [leads, zero, if_true, Bool.false_eq_true, if_false]
    exact .ok room ends shown
  | cons token more =>
    rw [leads_after.mpr ⟨token, more, rfl, starts_cons.mp starts⟩]
    exact .ok room after shown

/-- The loop of `parseexec` takes a word, if there is room for it. -/
theorem Ahead.argLoop_word {word : List Byte} (ahead : Ahead buf s (.word word :: tokens))
    (rounds argc : Nat) (cmd : Cmd) :
    ∃ q eq next, Ahead buf next tokens ∧ Span buf q eq word ∧
      argLoop buf (strlen buf) (rounds + 1) cmd argc s =
        if maxArgs ≤ argc + 1 then .error (.panic "too many args")
        else (do
          let (ret, ps) ← parseredirs buf (strlen buf) (cmd.addArg q eq) next
          argLoop buf (strlen buf) rounds ret (argc + 1) ps) := by
  obtain ⟨next, peeked, here, _⟩ :=
    ahead.peek (show [byte '|', byte ')', byte '&', byte ';'] ⊆ symbols by decide)
  obtain ⟨code, after, span⟩ := here.gettoken
  refine ⟨_, _, _, after, span word rfl, ?_⟩
  rw [argLoop, peeked]
  have isWord : (Shell.gettoken buf (strlen buf) next).ret = byte 'a' := code
  have notEnd : ¬ byte 'a' = 0 := by decide
  simp only [leads, Token.lead, Option.any_none, Bool.false_eq_true, if_false, isWord, if_neg notEnd,
    ne_eq, not_true_eq_false]

/-- The loop of `parseexec` gives up at what is neither a word nor after a command. -/
theorem Ahead.argLoop_panic (ahead : Ahead buf s (token :: tokens))
    (notWord : ∀ word, token ≠ .word word) (notAfter : ¬ Nonterminal.exec.After token)
    (rounds argc : Nat) (cmd : Cmd) :
    argLoop buf (strlen buf) (rounds + 1) cmd argc s = .error (.panic "syntax") := by
  obtain ⟨next, peeked, here, _⟩ :=
    ahead.peek (show [byte '|', byte ')', byte '&', byte ';'] ⊆ symbols by decide)
  have none : leads [byte '|', byte ')', byte '&', byte ';'] (token :: tokens) = false := by
    rw [Bool.eq_false_iff, ne_eq, leads_after]
    rintro ⟨_, _, ⟨rfl, rfl⟩, after⟩
    exact notAfter after
  obtain ⟨code, _, _⟩ := here.gettoken
  have notEnd : ¬ token.code = 0 := by
    cases token with
    | redir op => cases op <;> decide
    | word _ => exact absurd rfl (notWord _)
    | _ => decide
  have noWord : token.code ≠ byte 'a' := by
    rw [ne_eq, code_eq_word]
    rintro ⟨word, same⟩
    exact notWord word same
  rw [argLoop, peeked, none]
  simp only [Bool.false_eq_true, if_false, code, if_neg notEnd, if_pos noWord]

/-- The loop of `parseexec` takes the words that come first with their redirections. -/
theorem Ahead.argLoop_agrees {argc limit : Nat} {words : List (List Byte)}
    (ahead : Ahead buf s tokens) (room : argc ≤ maxArgs - 1) (enough : tokens.length < rounds)
    (within : tokens.length ≤ limit)
    (before : Shows (Span buf) cmd (redirs.foldl .redir (.exec words))) :
    Agrees buf (fun args => argc + args.length ≤ maxArgs - 1) (argTree redirs words)
      (takeArgs limit tokens) (argLoop buf (strlen buf) rounds cmd argc s) := by
  obtain ⟨rounds, rfl⟩ := Nat.exists_eq_succ_of_ne_zero (by omega : rounds ≠ 0)
  fun_induction takeArgs limit tokens generalizing s rounds argc cmd redirs words with
  | case1 limit word rest ih =>
    obtain ⟨q, eq, next, after, span, stepped⟩ := ahead.argLoop_word rounds argc cmd
    rw [stepped]
    split
    case isTrue full =>
      refine .inr ⟨?_, _, rfl⟩
      intro args last found fits
      obtain ⟨⟨taken, more⟩, _, found⟩ := Option.bind_eq_some_iff.mp found
      obtain ⟨⟨later, _⟩, _, same⟩ := Option.bind_eq_some_iff.mp found
      cases same
      rw [List.length_cons] at fits
      unfold maxArgs at *
      omega
    case isFalse here =>
      refine (after.parseredirs_agrees (before.addArg redirs span)).bind (fun _ _ _ _ _ _ => trivial)
        fun taken more cmd' last found _ ends shown => ?_
      have length := congrArg List.length (takeRedirs_yield found)
      rw [List.length_append] at length
      rw [List.length_cons] at enough within
      obtain ⟨rounds, rfl⟩ := Nat.exists_eq_succ_of_ne_zero (by omega : rounds ≠ 0)
      rw [← List.foldl_append] at shown
      have more : argc + 1 ≤ maxArgs - 1 := by
        unfold maxArgs at *
        omega
      refine (ih _ ends more (by omega) shown rounds (by omega)).map ?_ ?_
      · intro args
        rw [List.length_cons]
        omega
      · simp [argTree]
  | case2 limit => exact ahead.argLoop_stop starts_nil rounds room before
  | case3 limit token rest isAfter _ =>
    exact ahead.argLoop_stop (starts_cons.mpr (by simpa [Nonterminal.After] using isAfter)) rounds
      room before
  | case4 limit token rest other notWord =>
    obtain _ | limit := limit
    · cases within
    rw [ahead.argLoop_panic (fun word => notWord limit word rfl)
      (by simpa [Nonterminal.After] using other)]
    exact .stop

/-! ## Commands -/

/-- The tokens of one character that `peek` is asked for alone. -/
def single : List Token := [.bar, .amp, .semi, .left, .right]

theorem lead_inj (alone : symbol ∈ single) : token.lead = symbol.lead ↔ token = symbol := by
  refine ⟨fun same => ?_, congrArg _⟩
  simp only [single, List.mem_cons, List.not_mem_nil, or_false] at alone
  rcases alone with rfl | rfl | rfl | rfl | rfl <;> cases token with
  | redir op => cases op <;> exact absurd same (by decide)
  | word _ => exact absurd same nofun
  | _ => first | rfl | exact absurd same (by decide)

theorem leads_single (alone : symbol ∈ single) (lead : symbol.lead = some c) :
    leads [c] tokens = true ↔ ∃ more, tokens = symbol :: more := by
  cases tokens with
  | nil => exact iff_of_false nofun nofun
  | cons token more =>
    have first : leads [c] (token :: more) = true ↔ token.lead = some c := by
      simp only [leads]
      cases token.lead with
      | none => simp
      | some d => simp
    rw [first, ← lead, lead_inj alone]
    constructor
    · rintro rfl
      exact ⟨more, rfl⟩
    · rintro ⟨_, same⟩
      exact (List.cons.inj same).1

theorem single_symbols (alone : symbol ∈ single) (lead : symbol.lead = some c) : [c] ⊆ symbols := by
  simp only [single, List.mem_cons, List.not_mem_nil, or_false] at alone
  rcases alone with rfl | rfl | rfl | rfl | rfl <;> cases lead <;> decide

theorem Ahead.take (alone : symbol ∈ single) (lead : symbol.lead = some c)
    (ahead : Ahead buf s (symbol :: tokens)) :
    ∃ next, Shell.peek buf (strlen buf) s [c] = (next, true) ∧ Ahead buf next (symbol :: tokens) ∧
      Ahead buf (Shell.gettoken buf (strlen buf) next).ps tokens := by
  obtain ⟨next, peeked, after, _⟩ := ahead.peek (single_symbols alone lead)
  rw [(leads_single alone lead).mpr ⟨tokens, rfl⟩] at peeked
  exact ⟨next, peeked, after, after.gettoken.2.1⟩

theorem Ahead.pass (alone : symbol ∈ single) (lead : symbol.lead = some c)
    (ahead : Ahead buf s tokens) (starts : Starts (· ≠ symbol) tokens) :
    ∃ next, Shell.peek buf (strlen buf) s [c] = (next, false) ∧ Ahead buf next tokens := by
  obtain ⟨next, peeked, after, _⟩ := ahead.peek (single_symbols alone lead)
  have none : leads [c] tokens = false := by
    rw [Bool.eq_false_iff, ne_eq, leads_single alone lead]
    rintro ⟨more, rfl⟩
    exact starts_cons.mp starts rfl
  rw [none] at peeked
  exact ⟨next, peeked, after⟩

theorem Ahead.backLoop_ok (amps : Nat) (ahead : Ahead buf s (List.replicate amps .amp ++ tokens))
    (starts : Starts (· ≠ .amp) tokens) (enough : amps < rounds)
    (before : Shows (Span buf) cmd tree) :
    ∃ cmd' next, backLoop buf (strlen buf) rounds cmd s = .ok (cmd', next) ∧
      Ahead buf next tokens ∧ Shows (Span buf) cmd' (Tree.back^[amps] tree) := by
  induction amps generalizing s rounds cmd tree with
  | zero =>
    obtain ⟨rounds, rfl⟩ := Nat.exists_eq_succ_of_ne_zero (by omega : rounds ≠ 0)
    obtain ⟨next, peeked, after⟩ := ahead.pass (by decide) rfl starts
    refine ⟨cmd, next, ?_, after, before⟩
    rw [backLoop, peeked]
    rfl
  | succ amps ih =>
    obtain ⟨rounds, rfl⟩ := Nat.exists_eq_succ_of_ne_zero (by omega : rounds ≠ 0)
    obtain ⟨next, peeked, _, after⟩ := Ahead.take (by decide) rfl ahead
    rw [backLoop, peeked]
    exact ih after (by omega) before.back

theorem Ahead.backs_ok (amps : Nat) (ahead : Ahead buf s (List.replicate amps .amp ++ tokens))
    (starts : Starts (· ≠ .amp) tokens) (before : Shows (Span buf) cmd tree) :
    ∃ cmd' next, backLoop buf (strlen buf) (strlen buf - s + 1) cmd s = .ok (cmd', next) ∧
      Ahead buf next tokens ∧ Shows (Span buf) cmd' (Tree.back^[amps] tree) := by
  have few := ahead.length_le
  rw [List.length_append, List.length_replicate] at few
  exact ahead.backLoop_ok amps starts (by omega) before

/-- The parsing function. -/
def parse : Nonterminal → (buf : List Byte) → (es depth ps : Nat) → Except Halt (Cmd × Nat)
  | .line => parseline
  | .pipe => parsepipe
  | .exec => parseexec

/-- The parsing functions agree with the parser of tokens. -/
def Refined (buf : List Byte) (depth : Nat) : Prop :=
  ∀ n s tokens, Ahead buf s tokens → 4 * tokens.length + n.rank ≤ depth →
    Agrees buf Derivation.Fits Derivation.tree (derive depth n tokens)
      (parse n buf (strlen buf) depth s)

section Refined

variable {depth : Nat}

theorem parseline_refined (below : Refined buf depth) (ahead : Ahead buf s tokens)
    (enough : 4 * tokens.length + 4 ≤ depth + 1) :
    Agrees buf Derivation.Fits Derivation.tree (derive (depth + 1) .line tokens)
      (parseline buf (strlen buf) (depth + 1) s) := by
  rw [derive, parseline]
  refine (below .pipe s tokens ahead (Nat.le_of_succ_le_succ enough)).bind ?_ ?_
  · intro front rest d last found fit
    rcases next_or .semi (takeAmps rest).2 with ⟨more, here⟩ | other
    · simp only [here, onNext_cons] at found
      obtain ⟨⟨tail, _⟩, _, same⟩ := Option.bind_eq_some_iff.mp found
      cases same
      exact fit.1
    · simp only [onNext_ne other] at found
      cases found
      exact fit
  · intro front middle cmd next found fit after shown
    have length := congrArg List.length (derive_yield depth found)
    rcases taken : takeAmps middle with ⟨amps, rest⟩
    obtain ⟨rfl, starts⟩ := takeAmps_yield taken
    obtain ⟨cmd, next, looped, here, backed⟩ := Ahead.backs_ok amps after starts shown
    simp only [looped, ok_bind, taken]
    rcases next_or .semi rest with ⟨more, rfl⟩ | other
    · obtain ⟨last, peeked, _, next⟩ := Ahead.take (by decide) rfl here
      simp only [List.length_append, List.length_cons] at length
      simp only [peeked, if_true, onNext_cons]
      refine (below .line _ more next (show _ + 4 ≤ depth by omega)).bind ?_ ?_
      · rintro tail rest d last ⟨⟩ fit
        exact fit.2
      · intro tail rest cmd' ends _ tailFit final tailShown
        exact .ok ⟨fit, tailFit⟩ final (backed.list tailShown)
    · obtain ⟨last, peeked, final⟩ := here.pass (by decide) rfl other
      simp only [peeked, onNext_ne other]
      exact .ok fit final backed

theorem parsepipe_refined (below : Refined buf depth) (ahead : Ahead buf s tokens)
    (enough : 4 * tokens.length + 3 ≤ depth + 1) :
    Agrees buf Derivation.Fits Derivation.tree (derive (depth + 1) .pipe tokens)
      (parsepipe buf (strlen buf) (depth + 1) s) := by
  rw [derive, parsepipe]
  refine (below .exec s tokens ahead (Nat.le_of_succ_le_succ enough)).bind ?_ ?_
  · intro front rest d last found fit
    rcases next_or .bar rest with ⟨more, here⟩ | other
    · simp only [here, onNext_cons] at found
      obtain ⟨⟨tail, _⟩, _, same⟩ := Option.bind_eq_some_iff.mp found
      cases same
      exact fit.1
    · simp only [onNext_ne other] at found
      cases found
      exact fit
  · intro front rest cmd next found fit after shown
    have length := congrArg List.length (derive_yield depth found)
    rcases next_or .bar rest with ⟨more, rfl⟩ | other
    · obtain ⟨last, peeked, _, next⟩ := Ahead.take (by decide) rfl after
      simp only [List.length_append, List.length_cons] at length
      simp only [peeked, if_true, onNext_cons]
      refine (below .pipe _ more next (show _ + 3 ≤ depth by omega)).bind ?_ ?_
      · rintro tail rest d last ⟨⟩ fit
        exact fit.2
      · intro tail rest cmd' ends _ tailFit final tailShown
        exact .ok ⟨fit, tailFit⟩ final (shown.pipe tailShown)
    · obtain ⟨last, peeked, final⟩ := after.pass (by decide) rfl other
      simp only [peeked, onNext_ne other]
      exact .ok fit final shown

theorem parseexec_refined (below : Refined buf depth) (ahead : Ahead buf s tokens)
    (enough : 4 * tokens.length + 2 ≤ depth + 2) :
    Agrees buf Derivation.Fits Derivation.tree (derive (depth + 2) .exec tokens)
      (parseexec buf (strlen buf) (depth + 2) s) := by
  rw [derive, parseexec]
  rcases next_or .left tokens with ⟨more, rfl⟩ | other
  · obtain ⟨next, peeked, here, _⟩ := Ahead.take (by decide) rfl ahead
    obtain ⟨again, peekedAgain, _, inside⟩ := Ahead.take (by decide) rfl here
    rw [List.length_cons] at enough
    simp only [peeked, if_true, onNext_cons, parseblock, peekedAgain, Bool.not_true, Bool.false_eq_true,
      if_false]
    refine (below .line _ more inside (show _ + 4 ≤ depth by omega)).bind ?_ ?_
    · intro body rest d last found fit
      unfold onNext at found
      split at found
      · obtain ⟨⟨redirs, _⟩, _, same⟩ := Option.bind_eq_some_iff.mp found
        cases same
        exact fit
      · cases found
    · intro body rest cmd next _ fit after shown
      rcases next_or .right rest with ⟨more, rfl⟩ | unclosed
      · obtain ⟨last, peeked, _, closed⟩ := Ahead.take (by decide) rfl after
        simp only [peeked, onNext_cons, Bool.not_true, Bool.false_eq_true, if_false]
        exact (closed.parseredirs_agrees shown).map (fun _ => iff_of_true fit trivial) fun _ => rfl
      · obtain ⟨last, peeked, _⟩ := after.pass (by decide) rfl unclosed
        simp only [peeked, onNext_ne unclosed]
        exact .stop
  · obtain ⟨next, peeked, here⟩ := ahead.pass (by decide) rfl other
    simp only [peeked, onNext_ne other]
    refine (here.parseredirs_agrees (.exec .nil)).bind (fun _ _ _ _ _ _ => trivial) ?_
    intro redirs rest cmd last _ _ after shown
    refine (after.argLoop_agrees (by decide) (Nat.lt_succ_of_le after.length_le)
      (Nat.le_refl _) shown).map ?_ ?_
    · intro args
      rw [Nat.zero_add]
      rfl
    · exact fun args => rfl

end Refined

theorem refined (buf : List Byte) (depth : Nat) : Refined buf depth := by
  induction depth using Nat.strong_induction_on with
  | h depth ih =>
    intro n s tokens ahead enough
    match depth, n with
    | 0, .line => cases enough
    | 0, .pipe => cases enough
    | 0, .exec => cases enough
    | 1, .exec => cases Nat.le_of_succ_le_succ enough
    | depth + 1, .line => exact parseline_refined (ih depth (by omega)) ahead enough
    | depth + 1, .pipe => exact parsepipe_refined (ih depth (by omega)) ahead enough
    | depth + 2, .exec => exact parseexec_refined (ih depth (by omega)) ahead enough

/-! ## Strings -/

/-- The places where the strings of a command end. -/
def Cmd.ends : Cmd → List Nat
  | .exec argv => argv.map Prod.snd
  | .redir cmd _ efile _ _ => cmd.ends ++ [efile]
  | .pipe left right => left.ends ++ right.ends
  | .list left right => left.ends ++ right.ends
  | .back cmd => cmd.ends

theorem Shows.mono {other : Nat → Nat → List Byte → Prop} (shown : Shows string cmd tree)
    (implies : ∀ q eq word, eq ∈ cmd.ends → string q eq word → other q eq word) :
    Shows other cmd tree := by
  induction shown with
  | exec strings =>
    refine .exec ?_
    induction strings with
    | nil => exact .nil
    | cons first _ ih =>
      refine .cons (implies _ _ _ List.mem_cons_self first) (ih ?_)
      exact fun q eq word member => implies q eq word (List.mem_cons_of_mem _ member)
  | redir inner name ih =>
    refine .redir (ih fun q eq word member => ?_) (implies _ _ _ (by simp [Cmd.ends]) name)
    exact implies q eq word (List.mem_append_left _ member)
  | pipe front tail frontIh tailIh =>
    exact .pipe (frontIh fun q eq word member => implies q eq word (List.mem_append_left _ member))
      (tailIh fun q eq word member => implies q eq word (List.mem_append_right _ member))
  | list front tail frontIh tailIh =>
    exact .list (frontIh fun q eq word member => implies q eq word (List.mem_append_left _ member))
      (tailIh fun q eq word member => implies q eq word (List.mem_append_right _ member))
  | back inner ih => exact .back (ih implies)

theorem Shows.exists_string (shown : Shows string cmd tree) {e : Nat} (member : e ∈ cmd.ends) :
    ∃ q word, string q e word := by
  induction shown with
  | exec strings =>
    obtain ⟨arg, listed, rfl⟩ := List.mem_map.mp member
    induction strings with
    | nil => cases listed
    | @cons first word _ _ here _ ih =>
      rcases List.mem_cons.mp listed with rfl | later
      · exact ⟨arg.1, word, here⟩
      · exact ih later (List.mem_map_of_mem later)
  | redir inner name ih =>
    rcases List.mem_append.mp member with within | last
    · exact ih within
    · obtain rfl := List.mem_singleton.mp last
      exact ⟨_, _, name⟩
  | pipe front tail frontIh tailIh | list front tail frontIh tailIh =>
    exact (List.mem_append.mp member).elim frontIh tailIh
  | back inner ih => exact ih member

theorem charAt_set (buf : List Byte) (e i : Nat) :
    charAt (buf.set e 0) i = if i = e then 0 else charAt buf i := by
  unfold charAt
  rw [List.getD_eq_getElem?_getD, List.getD_eq_getElem?_getD, List.getElem?_set]
  by_cases same : e = i
  · subst same
    simp only [if_true]
    split <;> rfl
  · rw [if_neg same, if_neg (Ne.symm same)]

/-- `nulterminate` clears the places where strings end. -/
theorem nulterminate_eq (buf : List Byte) (cmd : Cmd) :
    (nulterminate buf cmd).length = buf.length ∧
      ∀ i, charAt (nulterminate buf cmd) i = if i ∈ cmd.ends then 0 else charAt buf i := by
  induction cmd generalizing buf with
  | exec argv =>
    induction argv generalizing buf with
    | nil => exact ⟨rfl, fun _ => rfl⟩
    | cons arg argv ih =>
      obtain ⟨length, chars⟩ := ih (buf.set arg.2 0)
      refine ⟨length.trans (List.length_set ..), fun i => (chars i).trans ?_⟩
      simp only [charAt_set, Cmd.ends, List.map_cons, List.mem_cons]
      split_ifs <;> tauto
  | redir cmd file efile mode fd ih =>
    obtain ⟨length, chars⟩ := ih buf
    refine ⟨(List.length_set ..).trans length, fun i => ?_⟩
    simp only [nulterminate, charAt_set, chars, Cmd.ends, List.mem_append, List.mem_singleton]
    split_ifs <;> tauto
  | pipe left right leftIh rightIh | list left right leftIh rightIh =>
    obtain ⟨length, chars⟩ := leftIh buf
    obtain ⟨lengths, both⟩ := rightIh (nulterminate buf left)
    refine ⟨lengths.trans length, fun i => ?_⟩
    simp only [nulterminate, both, chars, Cmd.ends, List.mem_append]
    split_ifs <;> tauto
  | back cmd ih => exact ih buf

/-- A terminated string that is a word. -/
structure CString (buf : List Byte) (q : Nat) (word : List Byte) : Prop where
  /-- The terminator is within the buffer. -/
  bound : q + word.length < buf.length
  /-- The characters are those of the word. -/
  chars : ∀ i (inside : i < word.length), charAt buf (q + i) = word[i]
  /-- The terminator comes after them. -/
  terminator : charAt buf (q + word.length) = 0
  /-- None of them is the terminator. -/
  nonzero : 0 ∉ word

theorem Span.getElem? {q e : Nat} {word : List Byte} (span : Span buf q e word) {i : Nat}
    (inside : i < word.length) : (text buf)[q + i]? = some word[i] := by
  rw [← List.getElem?_drop, span.here, List.getElem?_append_left inside,
    List.getElem?_eq_getElem inside]

/-- After `nulterminate` the strings of a command are its words. -/
theorem Shows.terminated (shown : Shows (Span buf) cmd tree) (terminated : 0 ∈ buf) :
    Shows (fun q _ word => CString (nulterminate buf cmd) q word) cmd tree := by
  obtain ⟨length, chars⟩ := nulterminate_eq buf cmd
  have short := strlen_lt terminated
  apply shown.mono
  intro q e word member span
  have ends := span.long
  have bound := span.bound
  refine ⟨by omega, ?_, ?_, ?_⟩
  · intro i inside
    have char := span.getElem? inside
    -- No string ends at a character of a word.
    have apart : q + i ∉ cmd.ends := by
      intro isEnd
      obtain ⟨other, text, otherSpan⟩ := shown.exists_string isEnd
      have notWord := otherSpan.maximal _ char
      rw [span.chars _ (List.getElem_mem inside)] at notWord
      cases notWord
    rw [chars, if_neg apart, charAt_eq (by omega), char]
    rfl
  · rw [chars, ← ends, if_pos member]
  · intro zero
    obtain ⟨i, inside, same⟩ := List.getElem_of_mem zero
    have char := span.getElem? inside
    exact ne_zero_of_mem_text (List.mem_of_getElem? char) same

/-- `parsecmd` returns the tree of the derivation of the line, or there is none in which no program
has too many words. -/
theorem parsecmd_spec (terminated : 0 ∈ buf) :
    (∃ (d : Derivation .line) (cmd : Cmd) (buf' : List Byte), d.yield = lex (text buf) ∧ d.Fits ∧
      parsecmd buf = .ok (cmd, buf') ∧ Shows (fun q _ word => CString buf' q word) cmd d.tree) ∨
    (∀ d : Derivation .line, d.yield = lex (text buf) → ¬ d.Fits) ∧
      ∃ message, parsecmd buf = .error (.panic message) := by
  have ahead : Ahead buf 0 (lex (text buf)) := ⟨Nat.zero_le _, rfl⟩
  have few : (lex (text buf)).length ≤ strlen buf := length_lex_le _
  have enough : 4 * (lex (text buf)).length + 4 ≤ 4 * strlen buf + 4 := by omega
  rw [parsecmd]
  rcases refined buf (4 * strlen buf + 4) .line 0 _ ahead enough with
    ⟨d, rest, cmd, ps, found, fits, parsed, after, shown⟩ | ⟨misfit, message, stopped⟩
  · rw [show parseline buf (strlen buf) (4 * strlen buf + 4) 0 = _ from parsed]
    obtain ⟨next, peeked, _, ends⟩ := after.peek (List.nil_subset symbols)
    simp only [ok_bind, peeked]
    split
    case isTrue more =>
      refine .inr ⟨?_, _, rfl⟩
      intro other yields
      cases found.symm.trans ((derive_iff enough other).mpr yields)
      exact absurd (ends.mpr rfl) more
    case isFalse finished =>
      obtain rfl := ends.mp (not_not.mp finished)
      exact .inl ⟨d, cmd, _, (derive_iff enough d).mp found, fits, rfl, shown.terminated terminated⟩
  · rw [show parseline buf (strlen buf) (4 * strlen buf + 4) 0 = _ from stopped]
    exact .inr ⟨fun d yields => misfit d [] ((derive_iff enough d).mpr yields), message, rfl⟩

/-- `parsecmd` accepts exactly the lines whose tokens have a derivation in which no program has too
many words, and gives up with a message on the others; a line has at most one derivation, and the
command has its tree, with every pointer to a string that is its word. -/
theorem parsecmd_grammar (terminated : 0 ∈ buf) :
    ((∃ cmd buf', parsecmd buf = .ok (cmd, buf')) ↔
      ∃ d : Derivation .line, d.yield = lex (text buf) ∧ d.Fits) ∧
    (∀ stop, parsecmd buf = .error stop → ∃ message, stop = .panic message) ∧
    (∀ d d' : Derivation .line, d.yield = lex (text buf) → d'.yield = lex (text buf) → d = d') ∧
    ∀ cmd buf' (d : Derivation .line), parsecmd buf = .ok (cmd, buf') → d.yield = lex (text buf) →
      Shows (fun q _ word => CString buf' q word) cmd d.tree := by
  have one : ∀ d d' : Derivation .line, d.yield = lex (text buf) → d'.yield = lex (text buf) →
      d = d' := by
    intro d d' first second
    cases ((derive_iff (Nat.le_refl _) d).mpr first).symm.trans
      ((derive_iff (Nat.le_refl _) d').mpr second)
    rfl
  rcases parsecmd_spec terminated with
    ⟨d, cmd, buf', yields, fits, accepted, shown⟩ | ⟨misfit, message, stopped⟩
  · rw [accepted]
    refine ⟨iff_of_true ⟨cmd, buf', rfl⟩ ⟨d, yields, fits⟩, nofun, one, ?_⟩
    rintro _ _ other ⟨⟩ otherYields
    rwa [one other d otherYields yields]
  · rw [stopped]
    refine ⟨iff_of_false nofun fun ⟨d, yields, fits⟩ => misfit d yields fits, ?_, one, nofun⟩
    rintro _ ⟨⟩
    exact ⟨message, rfl⟩

/-- The line `ls>x&` has the derivation of a program with a redirection, in the background. -/
theorem parsecmd_grammar_ls : ∃ cmd buf',
    parsecmd [byte 'l', byte 's', byte '>', byte 'x', byte '&', 0] = .ok (cmd, buf') ∧
    Shows (fun q _ word => CString buf' q word) cmd
      (.back (.redir (.exec [[byte 'l', byte 's']]) ⟨.output, [byte 'x']⟩)) := by
  have terminated : 0 ∈ [byte 'l', byte 's', byte '>', byte 'x', byte '&', 0] := by decide
  have tokens : lex (text [byte 'l', byte 's', byte '>', byte 'x', byte '&', 0]) =
      [.word [byte 'l', byte 's'], .redir .output, .word [byte 'x'], .amp] := by
    decide +kernel
  obtain ⟨accepts, _, _, shown⟩ := parsecmd_grammar terminated
  let d : Derivation .line :=
    .last (.single (.simple [] [([byte 'l', byte 's'], [⟨.output, [byte 'x']⟩])])) 1
  have yields : d.yield = lex (text [byte 'l', byte 's', byte '>', byte 'x', byte '&', 0]) :=
    tokens.symm
  have fits : d.Fits := by
    show 1 ≤ maxArgs - 1
    decide
  obtain ⟨cmd, buf', accepted⟩ := accepts.mpr ⟨d, yields, fits⟩
  exact ⟨cmd, buf', accepted, shown cmd buf' d accepted yields⟩

end Shell

end MemoryEncryption
