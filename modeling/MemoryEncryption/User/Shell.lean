import MemoryEncryption.Kernel.Word
import MemoryEncryption.Library.Outcome

/-!
# The parser of the shell

The part of `sh.c` that turns a line into a command. The line is in a buffer that holds
its terminator; pointers into it are indices, and a read is at the terminator at the
latest. The strings of a command are a pointer to the first character and one past the
last character, as `argv` and `eargv` are. Memory for commands does not run out.
-/

namespace MemoryEncryption

namespace Shell

/-- A character. -/
def byte (c : Char) : Byte := BitVec.ofNat 8 c.toNat

/-- `MAXARGS`. -/
def maxArgs : Nat := 10

/-- `O_RDONLY`. -/
def oRdonly : Nat := 0x000

/-- `O_WRONLY|O_CREATE`. -/
def oWronlyCreate : Nat := 0x001 ||| 0x200

/-- `whitespace`. -/
def whitespace : List Byte := [byte ' ', byte '\t', byte '\r', byte '\n', 11]

/-- `symbols`. -/
def symbols : List Byte :=
  [byte '<', byte '|', byte '>', byte '&', byte ';', byte '(', byte ')']

/-- A parsed command. -/
inductive Cmd where
  /-- `struct execcmd`: `argv` with `eargv`, up to the null pointer. -/
  | exec (argv : List (Nat × Nat))
  /-- `struct redircmd`. -/
  | redir (cmd : Cmd) (file efile mode fd : Nat)
  /-- `struct pipecmd`. -/
  | pipe (left right : Cmd)
  /-- `struct listcmd`. -/
  | list (left right : Cmd)
  /-- `struct backcmd`. -/
  | back (cmd : Cmd)
  deriving DecidableEq, Repr

/-- `cmd->argv[argc] = q; cmd->eargv[argc] = eq` for the `struct execcmd` that redirections may have
been put around since. -/
def Cmd.addArg : Cmd → (q eq : Nat) → Cmd
  | .exec argv, q, eq => .exec (argv ++ [(q, eq)])
  | .redir cmd file efile mode fd, q, eq => .redir (cmd.addArg q eq) file efile mode fd
  | cmd, _, _ => cmd

/-- `*s`. -/
def charAt (buf : List Byte) (s : Nat) : Byte := buf.getD s 0

/-- `strlen`. -/
def strlen (buf : List Byte) : Nat := (buf.takeWhile (· ≠ 0)).length

/-- `while(s < es && ...) s++`, where the first argument is `es - s`. -/
def skipWhile (test : Byte → Bool) (buf : List Byte) : Nat → (s : Nat) → Nat
  | 0, s => s
  | left + 1, s => if test (charAt buf s) then skipWhile test buf left (s + 1) else s

/-- `strchr(whitespace, c)`. -/
def isSpace (c : Byte) : Bool := whitespace.contains c

/-- `!strchr(whitespace, c) && !strchr(symbols, c)`. -/
def isWord (c : Byte) : Bool := !whitespace.contains c && !symbols.contains c

/-- What `gettoken` returns and stores. -/
structure Got where
  /-- The kind of the token. -/
  ret : Byte
  /-- `*q`. -/
  q : Nat
  /-- `*eq`. -/
  eq : Nat
  /-- `*ps`. -/
  ps : Nat

/-- The switch of `gettoken`: the kind of the token, and where it ends. -/
def classify (buf : List Byte) (es s : Nat) : Byte × Nat :=
  let c := charAt buf s
  if c = 0 then (c, s)
  else if c ∈ [byte '|', byte '(', byte ')', byte ';', byte '&', byte '<'] then (c, s + 1)
  else if c = byte '>' then
    if charAt buf (s + 1) = byte '>' then (byte '+', s + 2) else (c, s + 1)
  else (byte 'a', skipWhile isWord buf (es - s) s)

/-- `gettoken`. -/
def gettoken (buf : List Byte) (es ps : Nat) : Got :=
  let q := skipWhile isSpace buf (es - ps) ps
  let (ret, eq) := classify buf es q
  ⟨ret, q, eq, skipWhile isSpace buf (es - eq) eq⟩

/-- `peek`: `*ps`, and whether one of the characters is next. -/
def peek (buf : List Byte) (es ps : Nat) (toks : List Byte) : Nat × Bool :=
  let s := skipWhile isSpace buf (es - ps) ps
  (s, charAt buf s ≠ 0 ∧ toks.contains (charAt buf s))

/-- The loop of `parseredirs`. -/
def redirLoop (buf : List Byte) (es : Nat) : Nat → (cmd : Cmd) → (ps : Nat) → Except Halt (Cmd × Nat)
  | 0, _, _ => .error .endless
  | rounds + 1, cmd, ps =>
    let (ps, found) := peek buf es ps [byte '<', byte '>']
    if found then
      let tok := gettoken buf es ps
      let file := gettoken buf es tok.ps
      if file.ret ≠ byte 'a' then .error (.panic "missing file for redirection")
      else
        let cmd :=
          if tok.ret = byte '<' then .redir cmd file.q file.eq oRdonly 0
          else if tok.ret = byte '>' then .redir cmd file.q file.eq oWronlyCreate 1
          else if tok.ret = byte '+' then .redir cmd file.q file.eq oWronlyCreate 1
          else cmd
        redirLoop buf es rounds cmd file.ps
    else .ok (cmd, ps)

/-- `parseredirs`. -/
def parseredirs (buf : List Byte) (es : Nat) (cmd : Cmd) (ps : Nat) : Except Halt (Cmd × Nat) :=
  redirLoop buf es (es - ps + 1) cmd ps

/-- The loop of `parseexec`. -/
def argLoop (buf : List Byte) (es : Nat) : Nat → (ret : Cmd) → (argc ps : Nat) →
    Except Halt (Cmd × Nat)
  | 0, _, _, _ => .error .endless
  | rounds + 1, ret, argc, ps =>
    let (ps, found) := peek buf es ps [byte '|', byte ')', byte '&', byte ';']
    if found then .ok (ret, ps)
    else
      let tok := gettoken buf es ps
      if tok.ret = 0 then .ok (ret, tok.ps)
      else if tok.ret ≠ byte 'a' then .error (.panic "syntax")
      else
        let ret := ret.addArg tok.q tok.eq
        let argc := argc + 1
        if maxArgs ≤ argc then .error (.panic "too many args")
        else do
          let (ret, ps) ← parseredirs buf es ret tok.ps
          argLoop buf es rounds ret argc ps

/-- The loop of `parseline`. -/
def backLoop (buf : List Byte) (es : Nat) : Nat → (cmd : Cmd) → (ps : Nat) → Except Halt (Cmd × Nat)
  | 0, _, _ => .error .endless
  | rounds + 1, cmd, ps =>
    let (ps, found) := peek buf es ps [byte '&']
    if found then backLoop buf es rounds (.back cmd) (gettoken buf es ps).ps else .ok (cmd, ps)

mutual

/-- `parseline`. -/
def parseline (buf : List Byte) (es : Nat) : Nat → (ps : Nat) → Except Halt (Cmd × Nat)
  | 0, _ => .error .endless
  | depth + 1, ps => do
    let (cmd, ps) ← parsepipe buf es depth ps
    let (cmd, ps) ← backLoop buf es (es - ps + 1) cmd ps
    let (ps, found) := peek buf es ps [byte ';']
    if found then
      let (rest, ps) ← parseline buf es depth (gettoken buf es ps).ps
      .ok (.list cmd rest, ps)
    else .ok (cmd, ps)

/-- `parsepipe`. -/
def parsepipe (buf : List Byte) (es : Nat) : Nat → (ps : Nat) → Except Halt (Cmd × Nat)
  | 0, _ => .error .endless
  | depth + 1, ps => do
    let (cmd, ps) ← parseexec buf es depth ps
    let (ps, found) := peek buf es ps [byte '|']
    if found then
      let (rest, ps) ← parsepipe buf es depth (gettoken buf es ps).ps
      .ok (.pipe cmd rest, ps)
    else .ok (cmd, ps)

/-- `parseblock`. -/
def parseblock (buf : List Byte) (es : Nat) : Nat → (ps : Nat) → Except Halt (Cmd × Nat)
  | 0, _ => .error .endless
  | depth + 1, ps =>
    let (ps, found) := peek buf es ps [byte '(']
    if !found then .error (.panic "parseblock")
    else do
      let (cmd, ps) ← parseline buf es depth (gettoken buf es ps).ps
      let (ps, found) := peek buf es ps [byte ')']
      if !found then .error (.panic "syntax - missing )")
      else parseredirs buf es cmd (gettoken buf es ps).ps

/-- `parseexec`. -/
def parseexec (buf : List Byte) (es : Nat) : Nat → (ps : Nat) → Except Halt (Cmd × Nat)
  | 0, _ => .error .endless
  | depth + 1, ps =>
    let (ps, found) := peek buf es ps [byte '(']
    if found then parseblock buf es depth ps
    else do
      let (ret, ps) ← parseredirs buf es (.exec []) ps
      argLoop buf es (es - ps + 1) ret 0 ps

end

/-- `nulterminate`. -/
def nulterminate (buf : List Byte) : Cmd → List Byte
  | .exec argv => argv.foldl (fun buf arg => buf.set arg.2 0) buf
  | .redir cmd _ efile _ _ => (nulterminate buf cmd).set efile 0
  | .pipe left right => nulterminate (nulterminate buf left) right
  | .list left right => nulterminate (nulterminate buf left) right
  | .back cmd => nulterminate buf cmd

/-- `parsecmd`: the command, and the buffer after it. The calls nest at most four deep for every
character. -/
def parsecmd (buf : List Byte) : Except Halt (Cmd × List Byte) := do
  let es := strlen buf
  let (cmd, ps) ← parseline buf es (4 * es + 4) 0
  let (ps, _) := peek buf es ps []
  if ps ≠ es then .error (.panic "syntax") else .ok (cmd, nulterminate buf cmd)

end Shell

end MemoryEncryption
