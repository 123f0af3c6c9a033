import MemoryEncryption.Kernel.Process
import MemoryEncryption.Library.RingBuffer

/-!
# Console input

The variable `input`, `consoleintr` and `consoleread` of `console.c`. An interrupt
handles a list of characters, those that `getc` returns before it runs dry. A step of a
reader is what it does between taking `cons.lock` and giving it up, by returning or by
sleeping. Echo and process listing are left out: they do not touch `input`.
-/

namespace MemoryEncryption

/-- `INPUT_BUF`. -/
def inputBuf : Nat := 128

/-- The macro `C`: the character of a control key. -/
def control (letter : Char) : Byte := BitVec.ofNat 8 (letter.toNat - '@'.toNat)

/-- The character `'\n'`. -/
def newline : Byte := 10

/-- The character `'\r'`. -/
def carriageReturn : Byte := 13

/-- The character `'\x7f'`. -/
def delete : Byte := 127

/-- The variable `input`. -/
structure Input where
  /-- The characters. -/
  buf : Nat → Byte
  /-- Read index. -/
  r : BitVec 32
  /-- Write index. -/
  w : BitVec 32
  /-- Edit index. -/
  e : BitVec 32

namespace Input

/-- The loop of `C('U')`, with a round for every character from `w` to `e`. -/
def killLoop : Nat → Input → Input
  | 0, input => input
  | rounds + 1, input =>
    if input.e ≠ input.w ∧ input.buf ((input.e - 1).toNat % inputBuf) ≠ newline then
      killLoop rounds { input with e := input.e - 1 }
    else input

/-- What the loop of `consoleintr` does with one character, and whether it calls `wakeup`. -/
def key (input : Input) (c : Byte) : Input × Bool :=
  if c = control 'P' then (input, false)
  else if c = control 'U' then (input.killLoop (input.e - input.w).toNat, false)
  else if c = control 'H' ∨ c = delete then
    (if input.e ≠ input.w then { input with e := input.e - 1 } else input, false)
  else if c ≠ 0 ∧ (input.e - input.r).toNat < inputBuf then
    let c := if c = carriageReturn then newline else c
    let e := input.e + 1
    let buf := Function.update input.buf (input.e.toNat % inputBuf) c
    if c = newline ∨ c = control 'D' ∨ e = input.r + BitVec.ofNat 32 inputBuf then
      (⟨buf, input.r, e, e⟩, true)
    else (⟨buf, input.r, input.w, e⟩, false)
  else (input, false)

end Input

/-- `consoleintr` on the characters that `getc` returns, and whether it calls `wakeup`. -/
def consoleintr (input : Input) : List Byte → Input × Bool
  | [] => (input, false)
  | c :: rest =>
    ((consoleintr (input.key c).1 rest).1, (input.key c).2 || (consoleintr (input.key c).1 rest).2)

/-- How a stretch of the loop of `consoleread` ends. -/
inductive ReadEnd where
  /-- There is no room for another character. -/
  | full
  /-- After a newline. -/
  | newline
  /-- At a `C('D')`. -/
  | eof
  /-- Nothing to read. -/
  | blocked
  deriving DecidableEq, Repr

/-- The loop of `consoleread` up to its end or to an empty buffer, with room for `n` of `target`
characters: the characters stored at `dst`, the buffer after them, and the end. -/
def readLoop (target : Nat) : Nat → Input → List Byte × Input × ReadEnd
  | 0, input => ([], input, .full)
  | n + 1, input =>
    if input.r = input.w then ([], input, .blocked)
    else
      let c := input.buf (input.r.toNat % inputBuf)
      let next := { input with r := input.r + 1 }
      if c = control 'D' then
        ([], if n + 1 < target then { next with r := next.r - 1 } else next, .eof)
      else if c = newline then ([c], next, .newline)
      else
        let (bytes, input, ending) := readLoop target n next
        (c :: bytes, input, ending)

/-- Where a process is in its calls. -/
inductive ReadPlace where
  /-- Outside of a call, with the value its last one returned. -/
  | outside (value : Int)
  /-- In `consoleread`, about to take the lock, with the characters it has stored. -/
  | reading (target : Nat) (got : List Byte)
  /-- In `consoleread`, sleeping on `&input.r`. -/
  | sleeping (target : Nat) (got : List Byte)
  deriving DecidableEq, Repr

/-- The console and the processes that read from it. -/
structure Console (procs : Nat) where
  /-- The input buffer. -/
  input : Input
  /-- `killed` of each process. -/
  killed : Fin procs → Bool
  /-- Where each process is. -/
  pc : Fin procs → ReadPlace

/-- What can happen next. -/
inductive ConsoleEvent (procs : Nat) where
  /-- An interrupt with these characters. -/
  | interrupt (chars : List Byte)
  /-- A process calls `consoleread` with a size. -/
  | call (p : Fin procs) (target : Nat)
  /-- A process in the call takes the lock and goes on. -/
  | resume (p : Fin procs)
  /-- `kill`. -/
  | kill (p : Fin procs)

namespace Console

variable {procs : Nat}

/-- The console after boot. -/
def start (procs : Nat) : Console procs :=
  ⟨⟨fun _ => 0, 0, 0, 0⟩, fun _ => false, fun _ => .outside 0⟩

/-- Move a process. -/
def setPc (s : Console procs) (p : Fin procs) (place : ReadPlace) : Console procs :=
  { s with pc := Function.update s.pc p place }

/-- `wakeup(&input.r)`. -/
def wakeup (s : Console procs) : Console procs :=
  { s with pc := fun p => match s.pc p with
    | .sleeping target got => .reading target got
    | place => place }

/-- `consoleread` from taking the lock on, with the characters stored so far. The value is
`target - n`, the number of characters stored. -/
def consoleread (s : Console procs) (p : Fin procs) (target : Nat) (got : List Byte) :
    Console procs :=
  match readLoop target (target - got.length) s.input with
  | (bytes, input, .blocked) =>
    { s with input := input }.setPc p
      (if s.killed p then .outside (-1) else .sleeping target (got ++ bytes))
  | (bytes, input, _) => { s with input := input }.setPc p (.outside (got ++ bytes).length)

/-- One step. An event that cannot happen changes nothing. -/
def step (s : Console procs) : ConsoleEvent procs → Console procs
  | .interrupt chars =>
    let (input, woken) := consoleintr s.input chars
    if woken then { s with input := input }.wakeup else { s with input := input }
  | .call p target =>
    match s.pc p with
    | .outside _ => s.setPc p (.reading target [])
    | _ => s
  | .resume p =>
    match s.pc p with
    | .reading target got => s.consoleread p target got
    | _ => s
  | .kill p =>
    let s := { s with killed := Function.update s.killed p true }
    match s.pc p with
    | .sleeping target got => s.setPc p (.reading target got)
    | _ => s

end Console

end MemoryEncryption
