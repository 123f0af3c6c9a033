import MemoryEncryption.User.Shell

/-!
# The matcher of grep

`match`, `matchhere` and `matchstar` of `grep.c`. A string is the list of its characters
before the terminator, so `*text == '\0'` is the end of the list.
-/

namespace MemoryEncryption

namespace Grep

open Shell

/-- `*text != '\0' && (c == '.' || c == *text)`, and what is done with the text after it. -/
def takes (c : Byte) (next : List Byte → Except Halt Bool) : (text : List Byte) → Except Halt Bool
  | [] => .ok false
  | t :: text => if c = byte '.' ∨ c = t then next text else .ok false

mutual

/-- `matchhere`: search for `re` at the beginning of `text`. -/
def matchhere : Nat → (re text : List Byte) → Except Halt Bool
  | 0, _, _ => .error .endless
  | _ + 1, [], _ => .ok true
  | depth + 1, c :: re, text =>
    if re.head? = some (byte '*') then matchstar depth c re.tail text
    else if c = byte '$' ∧ re = [] then .ok text.isEmpty
    else takes c (matchhere depth re) text

/-- `matchstar`: search for `c*re` at the beginning of `text`. -/
def matchstar : Nat → (c : Byte) → (re text : List Byte) → Except Halt Bool
  | 0, _, _, _ => .error .endless
  | depth + 1, c, re, text => do
    if ← matchhere depth re text then .ok true else takes c (matchstar depth c re) text

end

/-- The loop of `match`. -/
def matchLoop (re : List Byte) : (text : List Byte) → Except Halt Bool
  | [] => matchhere (re.length + 1) re []
  | t :: text => do
    if ← matchhere (re.length + (t :: text).length + 1) re (t :: text) then .ok true
    else matchLoop re text

/-- `match`. The calls nest at most once for every character of the pattern and of the text. -/
def matchRe (re text : List Byte) : Except Halt Bool :=
  if re.head? = some (byte '^') then matchhere (re.tail.length + text.length + 1) re.tail text
  else matchLoop re text

end Grep

end MemoryEncryption
