import MemoryEncryption.User.Shell

/-!
# The grammar of the shell

The language that the parser of `sh.c` is for. A line is cut into tokens, where words are
maximal runs of characters that are neither whitespace nor symbols. A derivation is data:
its yield is the tokens that it derives, and its tree is the command that it stands for.
What may come after a derivation tells where it ends, so a parser of tokens finds it, and
a list of tokens has at most one derivation.
-/

namespace MemoryEncryption

variable {token : Token} {tokens : List Token} {redirs : List Redirection}
  {args : List (List Byte × List Redirection)}

namespace Shell

/-- What a redirection does. -/
inductive RedirOp where
  /-- `<` -/
  | input
  /-- `>` -/
  | output
  /-- `>>` -/
  | append
  deriving DecidableEq

/-- Tokens. -/
inductive Token where
  /-- A word. -/
  | word (text : List Byte)
  /-- `<`, `>` or `>>`. -/
  | redir (op : RedirOp)
  /-- `|` -/
  | bar
  /-- `&` -/
  | amp
  /-- `;` -/
  | semi
  /-- `(` -/
  | left
  /-- `)` -/
  | right
  deriving DecidableEq

/-- The token that a symbol other than `>` is. -/
def symbolToken (c : Byte) : Option Token :=
  if c = byte '|' then some .bar
  else if c = byte '(' then some .left
  else if c = byte ')' then some .right
  else if c = byte ';' then some .semi
  else if c = byte '&' then some .amp
  else if c = byte '<' then some (.redir .input)
  else none

/-- The first token of a line without whitespace before it, and what comes after the token. -/
def firstToken (c : Byte) (rest : List Byte) : Token × List Byte :=
  match symbolToken c with
  | some token => (token, rest)
  | none =>
    if c = byte '>' then
      if rest.head? = some (byte '>') then (.redir .append, rest.tail) else (.redir .output, rest)
    else (.word (c :: rest.takeWhile isWord), rest.dropWhile isWord)

theorem length_firstToken (c : Byte) (rest : List Byte) :
    (firstToken c rest).2.length ≤ rest.length := by
  unfold firstToken
  split
  · exact Nat.le_refl _
  · split
    · split
      · simp
      · exact Nat.le_refl _
    · exact List.IsSuffix.length_le (List.dropWhile_suffix _)

/-- The tokens of a line. -/
def lex : List Byte → List Token
  | [] => []
  | c :: rest =>
    if isSpace c then lex rest else (firstToken c rest).1 :: lex (firstToken c rest).2
termination_by line => line.length
decreasing_by
  · simp
  · have shorter := length_firstToken c rest
    simp only [List.length_cons]
    omega

/-- A redirection: what it does, and the word after it. -/
structure Redirection where
  op : RedirOp
  file : List Byte
  deriving DecidableEq

/-- The tokens of redirections. -/
def redirTokens (redirs : List Redirection) : List Token :=
  redirs.flatMap fun redir => [.redir redir.op, .word redir.file]

/-- The tokens of words with the redirections after each. -/
def argTokens (args : List (List Byte × List Redirection)) : List Token :=
  args.flatMap fun arg => .word arg.1 :: redirTokens arg.2

/-- What the grammar derives. -/
inductive Nonterminal where
  /-- A line. -/
  | line
  /-- A pipeline. -/
  | pipe
  /-- A command of a pipeline. -/
  | exec

/-- Derivations of the grammar. -/
inductive Derivation : Nonterminal → Type where
  /-- `line ::= pipe '&'*` -/
  | last (front : Derivation .pipe) (amps : Nat) : Derivation .line
  /-- `line ::= pipe '&'* ';' line` -/
  | list (front : Derivation .pipe) (amps : Nat) (tail : Derivation .line) : Derivation .line
  /-- `pipe ::= exec` -/
  | single (front : Derivation .exec) : Derivation .pipe
  /-- `pipe ::= exec '|' pipe` -/
  | pipe (front : Derivation .exec) (tail : Derivation .pipe) : Derivation .pipe
  /-- `exec ::= '(' line ')' redir*` -/
  | block (body : Derivation .line) (redirs : List Redirection) : Derivation .exec
  /-- `exec ::= redir* (word redir*)*` -/
  | simple (redirs : List Redirection) (args : List (List Byte × List Redirection)) :
    Derivation .exec

/-- The tree of a command. -/
inductive Tree where
  /-- A program with its arguments. -/
  | exec (words : List (List Byte))
  /-- A redirection around a command. -/
  | redir (tree : Tree) (redirection : Redirection)
  /-- A command into another one. -/
  | pipe (left right : Tree)
  /-- A command and then another one. -/
  | list (left right : Tree)
  /-- A command in the background. -/
  | back (tree : Tree)
  deriving DecidableEq

namespace Derivation

variable {n : Nonterminal}

/-- The tokens that are derived. -/
def yield {n : Nonterminal} : Derivation n → List Token
  | .last front amps => front.yield ++ List.replicate amps .amp
  | .list front amps tail => front.yield ++ List.replicate amps .amp ++ .semi :: tail.yield
  | .single front => front.yield
  | .pipe front tail => front.yield ++ .bar :: tail.yield
  | .block body redirs => .left :: body.yield ++ .right :: redirTokens redirs
  | .simple redirs args => redirTokens redirs ++ argTokens args

/-- The tree of a derivation: a redirection is around what precedes it, lists and pipelines nest to
the right. -/
def tree {n : Nonterminal} : Derivation n → Tree
  | .last front amps => Tree.back^[amps] front.tree
  | .list front amps tail => .list (Tree.back^[amps] front.tree) tail.tree
  | .single front => front.tree
  | .pipe front tail => .pipe front.tree tail.tree
  | .block body redirs => redirs.foldl .redir body.tree
  | .simple redirs args =>
    (redirs ++ args.flatMap fun arg => arg.2).foldl .redir (.exec (args.map fun arg => arg.1))

/-- No program has more words than there is room for. -/
def Fits {n : Nonterminal} : Derivation n → Prop
  | .last front _ => front.Fits
  | .list front _ tail => front.Fits ∧ tail.Fits
  | .single front => front.Fits
  | .pipe front tail => front.Fits ∧ tail.Fits
  | .block body _ => body.Fits
  | .simple _ args => args.length ≤ maxArgs - 1

end Derivation

/-! ## Where a derivation ends -/

/-- The first of the tokens, if there is one, is of a kind. -/
def Starts (kind : Token → Prop) (tokens : List Token) : Prop := ∀ token ∈ tokens.head?, kind token

theorem starts_nil {kind : Token → Prop} : Starts kind [] := fun _ none => nomatch none

@[simp] theorem starts_cons {kind : Token → Prop} : Starts kind (token :: tokens) ↔ kind token := by
  simp [Starts]

theorem Starts.mono {kind wider : Token → Prop} (starts : Starts kind tokens)
    (within : ∀ token, kind token → wider token) : Starts wider tokens :=
  fun token first => within token (starts token first)

theorem starts_ne {symbol : Token} (other : ¬ ∃ more, tokens = symbol :: more) :
    Starts (· ≠ symbol) tokens := by
  cases tokens with
  | nil => exact starts_nil
  | cons token more => exact starts_cons.mpr fun same => other ⟨more, by rw [same]⟩

/-- What can come after a derivation that is part of a larger one. -/
def Nonterminal.After : Nonterminal → Token → Prop
  | .line, token => token = .right
  | .pipe, token => token = .right ∨ token = .semi ∨ token = .amp
  | .exec, token => token = .right ∨ token = .semi ∨ token = .amp ∨ token = .bar

/-- Not the token of a redirection. -/
def Token.NotRedir (token : Token) : Prop := ∀ op, token ≠ .redir op

/-- Neither a word nor the token of a redirection. -/
def Token.NotArg (token : Token) : Prop := (∀ text, token ≠ .word text) ∧ token.NotRedir

theorem Nonterminal.After.notArg (after : Nonterminal.exec.After token) : token.NotArg := by
  rcases after with rfl | rfl | rfl | rfl <;> exact ⟨nofun, nofun⟩

theorem Nonterminal.After.afterExec (after : Nonterminal.pipe.After token) :
    Nonterminal.exec.After token := by
  rcases after with isRight | isSemi | isAmp
  · exact .inl isRight
  · exact .inr (.inl isSemi)
  · exact .inr (.inr (.inl isAmp))

theorem starts_bar : Starts Nonterminal.exec.After (.bar :: tokens) :=
  starts_cons.mpr (.inr (.inr (.inr rfl)))

/-- What comes after a pipeline and its `&` tokens. -/
def AfterAmps (token : Token) : Prop := token = .right ∨ token = .semi

theorem Nonterminal.After.afterAmps (after : Nonterminal.line.After token) :
    AfterAmps token := .inl after

theorem AfterAmps.ne_amp (after : AfterAmps token) : token ≠ .amp := by
  rcases after with rfl | rfl <;> nofun

theorem starts_amps (amps : Nat) (starts : Starts AfterAmps tokens) :
    Starts Nonterminal.pipe.After (List.replicate amps .amp ++ tokens) := by
  cases amps with
  | zero => exact starts.mono fun token after => after.imp id .inl
  | succ amps => exact starts_cons.mpr (.inr (.inr rfl))

/-- After a word and its redirections there is a word, or what comes after all words. -/
theorem starts_argTokens {rest : List Token} (starts : Starts Nonterminal.exec.After rest) :
    Starts Token.NotRedir (argTokens args ++ rest) := by
  cases args with
  | nil => exact starts.mono fun _ after => after.notArg.2
  | cons arg args => exact starts_cons.mpr nofun

theorem starts_simple {rest : List Token} (starts : Starts Nonterminal.exec.After rest) :
    Starts (· ≠ .left) (redirTokens redirs ++ (argTokens args ++ rest)) := by
  cases redirs with
  | cons redir redirs => exact starts_cons.mpr nofun
  | nil =>
    cases args with
    | cons arg args => exact starts_cons.mpr nofun
    | nil =>
      refine starts.mono fun token after => ?_
      rcases after with rfl | rfl | rfl | rfl <;> nofun

/-! ## A parser of tokens -/

/-- Go on after a symbol, or do something else if another token comes next. -/
def onNext {α : Type} (symbol : Token) (tokens : List Token) (found : List Token → α) (other : α) :
    α :=
  if tokens.head? = some symbol then found tokens.tail else other

theorem onNext_cons {α : Type} {symbol : Token} {found : List Token → α} {other : α} :
    onNext symbol (symbol :: tokens) found other = found tokens := if_pos rfl

theorem onNext_ne {α : Type} {symbol : Token} {found : List Token → α} {other : α}
    (starts : Starts (· ≠ symbol) tokens) : onNext symbol tokens found other = other :=
  if_neg fun same => starts symbol same rfl

theorem next_or (symbol : Token) (tokens : List Token) :
    (∃ more, tokens = symbol :: more) ∨ Starts (· ≠ symbol) tokens := by
  by_cases here : ∃ more, tokens = symbol :: more
  · exact .inl here
  · exact .inr (starts_ne here)

/-- The redirections that come first. -/
def takeRedirs : List Token → Option (List Redirection × List Token)
  | .redir op :: .word file :: rest => do
    let (redirs, last) ← takeRedirs rest
    some (⟨op, file⟩ :: redirs, last)
  | .redir _ :: _ => none
  | tokens => some ([], tokens)

/-- The words that come first, with their redirections, up to the end of the command. -/
def takeArgs : Nat → List Token → Option (List (List Byte × List Redirection) × List Token)
  | rounds + 1, .word word :: rest => do
    let (redirs, more) ← takeRedirs rest
    let (args, last) ← takeArgs rounds more
    some ((word, redirs) :: args, last)
  | _, [] => some ([], [])
  | _, token :: rest =>
    if token ∈ [.right, .semi, .amp, .bar] then some ([], token :: rest) else none

/-- The number of `&` tokens that come first. -/
def takeAmps : List Token → Nat × List Token
  | .amp :: rest => ((takeAmps rest).1 + 1, (takeAmps rest).2)
  | tokens => (0, tokens)

/-- The derivation of what comes first. -/
def derive : Nat → (n : Nonterminal) → List Token → Option (Derivation n × List Token)
  | 0, _, _ => none
  | 1, .exec, _ => none
  | depth + 1, .line, tokens => do
    let (front, rest) ← derive depth .pipe tokens
    onNext .semi (takeAmps rest).2
      (fun more => do
        let (tail, last) ← derive depth .line more
        some (.list front (takeAmps rest).1 tail, last))
      (some (.last front (takeAmps rest).1, (takeAmps rest).2))
  | depth + 1, .pipe, tokens => do
    let (front, rest) ← derive depth .exec tokens
    onNext .bar rest
      (fun more => do
        let (tail, last) ← derive depth .pipe more
        some (.pipe front tail, last))
      (some (.single front, rest))
  | depth + 2, .exec, tokens =>
    onNext .left tokens
      (fun more => do
        let (body, rest) ← derive depth .line more
        onNext .right rest
          (fun more => do
            let (redirs, last) ← takeRedirs more
            some (.block body redirs, last))
          none)
      (do
        let (redirs, rest) ← takeRedirs tokens
        let (args, last) ← takeArgs rest.length rest
        some (.simple redirs args, last))

/-! ## What the parser of tokens finds -/

theorem takeRedirs_eq {rest : List Token} (starts : Starts Token.NotRedir rest) :
    takeRedirs (redirTokens redirs ++ rest) = some (redirs, rest) := by
  induction redirs with
  | nil =>
    cases rest with
    | nil => rfl
    | cons token rest =>
      cases token with
      | redir op => exact absurd rfl (starts_cons.mp starts op)
      | _ => rfl
  | cons redir redirs ih =>
    show (takeRedirs (redirTokens redirs ++ rest) >>= _) = _
    rw [ih]
    rfl

theorem takeRedirs_yield {rest : List Token} (found : takeRedirs tokens = some (redirs, rest)) :
    tokens = redirTokens redirs ++ rest := by
  fun_induction takeRedirs tokens generalizing redirs with
  | case1 op file more ih =>
    obtain ⟨⟨others, last⟩, taken, same⟩ := Option.bind_eq_some_iff.mp found
    cases same
    rw [ih taken]
    rfl
  | case2 => cases found
  | case3 => cases found; rfl

theorem takeArgs_eq {rounds : Nat} {rest : List Token} (starts : Starts Nonterminal.exec.After rest)
    (enough : (argTokens args).length ≤ rounds) :
    takeArgs rounds (argTokens args ++ rest) = some (args, rest) := by
  induction args generalizing rounds with
  | nil =>
    cases rest with
    | nil => cases rounds <;> rfl
    | cons token rest =>
      rcases starts_cons.mp starts with rfl | rfl | rfl | rfl <;> cases rounds <;> rfl
  | cons arg args ih =>
    have parts : argTokens (arg :: args) = .word arg.1 :: (redirTokens arg.2 ++ argTokens args) := rfl
    rw [parts, List.length_cons, List.length_append] at enough
    obtain ⟨rounds, rfl⟩ := Nat.exists_eq_succ_of_ne_zero (by omega : rounds ≠ 0)
    rw [parts, List.cons_append, List.append_assoc, takeArgs, takeRedirs_eq (starts_argTokens starts)]
    simp only [Option.bind_eq_bind, Option.bind_some, ih (by omega : _ ≤ rounds)]

theorem takeArgs_yield {rounds : Nat} {rest : List Token}
    (found : takeArgs rounds tokens = some (args, rest)) : tokens = argTokens args ++ rest := by
  fun_induction takeArgs rounds tokens generalizing args with
  | case1 rounds word more ih =>
    obtain ⟨⟨redirs, others⟩, redirected, found⟩ := Option.bind_eq_some_iff.mp found
    obtain ⟨⟨later, last⟩, taken, same⟩ := Option.bind_eq_some_iff.mp found
    cases same
    rw [takeRedirs_yield redirected, ih others taken]
    simp [argTokens]
  | case2 => cases found; rfl
  | case3 => cases found; rfl
  | case4 => cases found

theorem takeAmps_eq (amps : Nat) {rest : List Token} (starts : Starts (· ≠ .amp) rest) :
    takeAmps (List.replicate amps .amp ++ rest) = (amps, rest) := by
  induction amps with
  | zero =>
    cases rest with
    | nil => rfl
    | cons token rest =>
      cases token with
      | amp => exact absurd rfl (starts_cons.mp starts)
      | _ => rfl
  | succ amps ih =>
    rw [List.replicate_succ, List.cons_append, takeAmps, ih]

theorem takeAmps_yield {amps : Nat} {rest : List Token} (found : takeAmps tokens = (amps, rest)) :
    tokens = List.replicate amps .amp ++ rest ∧ Starts (· ≠ .amp) rest := by
  fun_induction takeAmps tokens generalizing amps with
  | case1 more ih =>
    cases found
    exact ⟨congrArg (Token.amp :: ·) (ih rfl).1, (ih rfl).2⟩
  | case2 tokens other =>
    cases found
    refine ⟨rfl, starts_ne ?_⟩
    rintro ⟨more, same⟩
    exact other more same

/-- The calls that the first token may take. -/
def Nonterminal.rank : Nonterminal → Nat
  | .line => 4
  | .pipe => 3
  | .exec => 2

/-- What the parser of tokens takes is the yield of what it returns. -/
theorem derive_yield (depth : Nat) {n : Nonterminal} {d : Derivation n} {rest : List Token}
    (found : derive depth n tokens = some (d, rest)) : tokens = d.yield ++ rest := by
  induction depth using Nat.strong_induction_on generalizing n tokens rest with
  | h depth ih =>
    match depth, n with
    | 0, _ => cases found
    | 1, .exec => cases found
    | depth + 1, .line =>
      rw [derive] at found
      obtain ⟨⟨front, middle⟩, first, found⟩ := Option.bind_eq_some_iff.mp found
      rcases taken : takeAmps middle with ⟨amps, after⟩
      simp only [taken] at found
      rcases next_or .semi after with ⟨more, rfl⟩ | other
      · simp only [onNext_cons] at found
        obtain ⟨⟨tail, last⟩, second, same⟩ := Option.bind_eq_some_iff.mp found
        cases same
        rw [ih _ (by omega) first, (takeAmps_yield taken).1, ih _ (by omega) second]
        simp [Derivation.yield]
      · simp only [onNext_ne other] at found
        cases found
        rw [ih _ (by omega) first, (takeAmps_yield taken).1]
        simp [Derivation.yield]
    | depth + 1, .pipe =>
      rw [derive] at found
      obtain ⟨⟨front, middle⟩, first, found⟩ := Option.bind_eq_some_iff.mp found
      rcases next_or .bar middle with ⟨more, rfl⟩ | other
      · simp only [onNext_cons] at found
        obtain ⟨⟨tail, last⟩, second, same⟩ := Option.bind_eq_some_iff.mp found
        cases same
        rw [ih _ (by omega) first, ih _ (by omega) second]
        simp [Derivation.yield]
      · simp only [onNext_ne other] at found
        cases found
        exact (ih _ (by omega) first).trans rfl
    | depth + 2, .exec =>
      rw [derive] at found
      rcases next_or .left tokens with ⟨more, rfl⟩ | other
      · rw [onNext_cons] at found
        obtain ⟨⟨body, middle⟩, first, found⟩ := Option.bind_eq_some_iff.mp found
        rcases next_or .right middle with ⟨more, rfl⟩ | unclosed
        · simp only [onNext_cons] at found
          obtain ⟨⟨redirs, last⟩, second, same⟩ := Option.bind_eq_some_iff.mp found
          cases same
          rw [ih _ (by omega) first, takeRedirs_yield second]
          simp [Derivation.yield]
        · simp only [onNext_ne unclosed] at found
          cases found
      · rw [onNext_ne other] at found
        obtain ⟨⟨redirs, middle⟩, first, found⟩ := Option.bind_eq_some_iff.mp found
        obtain ⟨⟨args, last⟩, second, same⟩ := Option.bind_eq_some_iff.mp found
        cases same
        rw [takeRedirs_yield first, takeArgs_yield second]
        simp [Derivation.yield]

/-- The parser of tokens finds every derivation, up to what may come after it. -/
theorem derive_eq {n : Nonterminal} (d : Derivation n) {depth : Nat} {rest : List Token}
    (starts : Starts n.After rest) (enough : 4 * (d.yield ++ rest).length + n.rank ≤ depth) :
    derive depth n (d.yield ++ rest) = some (d, rest) := by
  induction d generalizing depth rest with
  | last front amps ih =>
    obtain _ | depth := depth
    · cases enough
    have ends := starts.mono fun _ => Nonterminal.After.afterAmps
    have noSemi : Starts (· ≠ .semi) rest := starts.mono fun _ isRight => by rw [isRight]; decide
    simp only [Derivation.yield, List.append_assoc] at enough ⊢
    rw [derive, ih (starts_amps amps ends) (Nat.le_of_succ_le_succ enough)]
    simp only [Option.bind_eq_bind, Option.bind_some,
      takeAmps_eq amps (ends.mono fun _ => AfterAmps.ne_amp), onNext_ne noSemi]
  | list front amps tail frontIh tailIh =>
    obtain _ | depth := depth
    · cases enough
    have ends : Starts AfterAmps (.semi :: (tail.yield ++ rest)) := starts_cons.mpr (.inr rfl)
    simp only [Derivation.yield, List.append_assoc, List.cons_append] at enough ⊢
    have less : 4 * (tail.yield ++ rest).length + 4 ≤ depth := by
      simp only [List.length_append, List.length_cons, Nonterminal.rank] at enough ⊢
      omega
    rw [derive, frontIh (starts_amps amps ends) (Nat.le_of_succ_le_succ enough)]
    simp only [Option.bind_eq_bind, Option.bind_some,
      takeAmps_eq amps (ends.mono fun _ => AfterAmps.ne_amp), onNext_cons, tailIh starts less]
  | single front ih =>
    obtain _ | depth := depth
    · cases enough
    have noBar : Starts (· ≠ .bar) rest := starts.mono fun _ ends => by
      rcases ends with rfl | rfl | rfl <;> decide
    have found := ih (starts.mono fun _ => Nonterminal.After.afterExec)
      (Nat.le_of_succ_le_succ enough)
    rw [Derivation.yield, derive, found]
    simp only [Option.bind_eq_bind, Option.bind_some, onNext_ne noBar]
  | pipe front tail frontIh tailIh =>
    obtain _ | depth := depth
    · cases enough
    simp only [Derivation.yield, List.append_assoc, List.cons_append] at enough ⊢
    have less : 4 * (tail.yield ++ rest).length + 3 ≤ depth := by
      simp only [List.length_append, List.length_cons, Nonterminal.rank] at enough ⊢
      omega
    rw [derive, frontIh starts_bar (Nat.le_of_succ_le_succ enough)]
    simp only [Option.bind_eq_bind, Option.bind_some, onNext_cons, tailIh starts less]
  | block body redirs ih =>
    obtain _ | _ | depth := depth
    · cases enough
    · cases Nat.le_of_succ_le_succ enough
    simp only [Derivation.yield, List.append_assoc, List.cons_append] at enough ⊢
    have less : 4 * (body.yield ++ .right :: (redirTokens redirs ++ rest)).length + 4 ≤ depth := by
      simp only [List.length_append, List.length_cons, Nonterminal.rank] at enough ⊢
      omega
    have noRedir := starts.mono fun _ after => after.notArg.2
    rw [derive, onNext_cons, ih (starts_cons.mpr rfl) less]
    simp only [Option.bind_eq_bind, Option.bind_some, onNext_cons, takeRedirs_eq noRedir]
  | simple redirs args =>
    obtain _ | _ | depth := depth
    · cases enough
    · cases Nat.le_of_succ_le_succ enough
    simp only [Derivation.yield, List.append_assoc]
    have length : (argTokens args).length ≤ (argTokens args ++ rest).length := by simp
    rw [derive, onNext_ne (starts_simple starts), takeRedirs_eq (starts_argTokens starts)]
    simp only [Option.bind_eq_bind, Option.bind_some, takeArgs_eq starts length]

/-- A list of tokens has at most one derivation, which the parser of tokens finds. -/
theorem derive_iff {depth : Nat} (enough : 4 * tokens.length + 4 ≤ depth) (d : Derivation .line) :
    derive depth .line tokens = some (d, []) ↔ d.yield = tokens := by
  constructor
  · intro found
    rw [derive_yield depth found, List.append_nil]
  · rintro rfl
    rw [← List.append_nil d.yield] at enough ⊢
    exact derive_eq d starts_nil enough

end Shell

end MemoryEncryption
