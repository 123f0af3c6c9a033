import MemoryEncryption.User.Grep
import Mathlib.Computability.Language

/-!
# What grep matches

A pattern is a list of items, and its language is the product of theirs. The star of a
language is one or the language before it again, which is the loop of `matchstar`, so
each call of the matcher decides whether the text begins with a word of a language.
-/

namespace MemoryEncryption

namespace Grep

open Shell
open scoped Computability

variable {c : Byte} {re text : List Byte} {ends : Bool} {l m : Language Byte}

/-- What a character of a pattern stands for. -/
def Stands (c t : Byte) : Prop := c = byte '.' ∨ c = t

/-- Items of a pattern. -/
inductive Item where
  /-- A character. -/
  | one (c : Byte)
  /-- A character and `*`. -/
  | star (c : Byte)

/-- The characters that a character of a pattern stands for. -/
def chars (c : Byte) : Language Byte := {word | ∃ t, Stands c t ∧ word = [t]}

/-- The language of an item. -/
def Item.language : Item → Language Byte
  | .one c => chars c
  | .star c => (chars c)∗

/-- The items of a pattern, and whether a final `$` requires the end of the text. -/
def items : List Byte → List Item × Bool
  | [] => ([], false)
  | [c] => if c = byte '$' then ([], true) else ([.one c], false)
  | c :: d :: re =>
    if d = byte '*' then (.star c :: (items re).1, (items re).2)
    else (.one c :: (items (d :: re)).1, (items (d :: re)).2)

/-- The language of a pattern. -/
def language (re : List Byte) : Language Byte := ((items re).1.map Item.language).prod

/-- The text contains a word of the pattern, at its start after `^`, and at its end before `$`. -/
def Contains (re text : List Byte) : Prop :=
  let body := if re.head? = some (byte '^') then re.tail else re
  ∃ before found after, text = before ++ found ++ after ∧ found ∈ language body ∧
    (re.head? = some (byte '^') → before = []) ∧ ((items body).2 = true → after = [])

/-- The text begins with a word of a language, which may have to be all of it. -/
def Begins (l : Language Byte) (ends : Bool) (text : List Byte) : Prop :=
  ∃ found after, text = found ++ after ∧ found ∈ l ∧ (ends = true → after = [])

theorem begins_one : Begins 1 ends text ↔ (ends = true → text = []) := by
  constructor
  · rintro ⟨found, after, rfl, rfl, all⟩
    exact all
  · intro all
    exact ⟨[], text, rfl, rfl, all⟩

theorem begins_add : Begins (l + m) ends text ↔ Begins l ends text ∨ Begins m ends text := by
  constructor
  · rintro ⟨found, after, same, member | member, all⟩
    · exact .inl ⟨found, after, same, member, all⟩
    · exact .inr ⟨found, after, same, member, all⟩
  · rintro (⟨found, after, same, member, all⟩ | ⟨found, after, same, member, all⟩)
    · exact ⟨found, after, same, .inl member, all⟩
    · exact ⟨found, after, same, .inr member, all⟩

/-- One more round of a star. -/
theorem begins_star : Begins ((chars c)∗ * l) ends text ↔
    Begins l ends text ∨ Begins (chars c * ((chars c)∗ * l)) ends text := by
  rw [← begins_add, ← mul_assoc, ← one_add_mul, Language.one_add_self_mul_kstar_eq_kstar]

theorem items_one (single : re.head? ≠ some (byte '*')) (inner : ¬ (c = byte '$' ∧ re = [])) :
    items (c :: re) = (.one c :: (items re).1, (items re).2) := by
  cases re with
  | nil => exact if_neg fun isEnd => inner ⟨isEnd, rfl⟩
  | cons d re => exact if_neg fun isStar => single (congrArg some isStar)

/-- A call returns, and tells whether something holds. -/
def Decides (result : Except Halt Bool) (holds : Prop) : Prop :=
  ∃ answer, result = .ok answer ∧ (answer = true ↔ holds)

theorem takes_decides {next : List Byte → Except Halt Bool}
    (decides : ∀ rest, text.length = rest.length + 1 → Decides (next rest) (Begins l ends rest)) :
    Decides (takes c next text) (Begins (chars c * l) ends text) := by
  cases text with
  | nil =>
    refine ⟨false, rfl, iff_of_false nofun ?_⟩
    rintro ⟨found, after, same, member, _⟩
    obtain ⟨_, ⟨t, _, rfl⟩, rest, _, rfl⟩ := Language.mem_mul.mp member
    cases same
  | cons t text =>
    have first : Begins (chars c * l) ends (t :: text) ↔ Stands c t ∧ Begins l ends text := by
      constructor
      · rintro ⟨found, after, same, member, all⟩
        obtain ⟨_, ⟨u, stands, rfl⟩, rest, inside, rfl⟩ := Language.mem_mul.mp member
        cases same
        exact ⟨stands, rest, after, rfl, inside, all⟩
      · rintro ⟨stands, found, after, rfl, member, all⟩
        have here : [t] ∈ chars c := ⟨t, stands, rfl⟩
        exact ⟨t :: found, after, rfl, Language.append_mem_mul here member, all⟩
    rw [takes, first]
    split
    case isTrue stands =>
      obtain ⟨answer, returned, holds⟩ := decides text rfl
      exact ⟨answer, returned, holds.trans (and_iff_right stands).symm⟩
    case isFalse other => exact ⟨false, rfl, iff_of_false nofun fun both => other both.1⟩

/-- `matchhere` and `matchstar` return within as many calls as there are characters, and tell whether
the text begins with a word of the pattern. -/
theorem matchhere_decides (depth : Nat) :
    (∀ re text, re.length + text.length < depth →
      Decides (matchhere depth re text) (Begins (language re) (items re).2 text)) ∧
    ∀ c re text, re.length + text.length + 1 < depth →
      Decides (matchstar depth c re text) (Begins ((chars c)∗ * language re) (items re).2 text) := by
  induction depth with
  | zero => exact ⟨nofun, nofun⟩
  | succ depth ih =>
    obtain ⟨here, star⟩ := ih
    constructor
    · intro re text enough
      cases re with
      | nil => exact ⟨true, rfl, iff_of_true rfl (begins_one.mpr nofun)⟩
      | cons c re =>
        rw [List.length_cons] at enough
        rw [matchhere]
        split
        case isTrue starred =>
          obtain ⟨more, rfl⟩ := List.head?_eq_some_iff.mp starred
          exact star c more text (by simp at enough; omega)
        case isFalse single =>
          split
          case isTrue isEnd =>
            obtain ⟨rfl, rfl⟩ := isEnd
            refine ⟨text.isEmpty, rfl, ?_⟩
            rw [List.isEmpty_iff]
            exact (begins_one.trans (forall_prop_of_true rfl)).symm
          case isFalse inner =>
            rw [language, items_one single inner]
            exact takes_decides fun rest length => here re rest (by omega)
    · intro c re text enough
      obtain ⟨answer, matched, holds⟩ := here re text (by omega)
      rw [matchstar, matched]
      cases answer with
      | true => exact ⟨true, rfl, iff_of_true rfl (begins_star.mpr (.inl (holds.mp rfl)))⟩
      | false =>
        rw [begins_star, or_iff_right fun begins => nomatch holds.mpr begins]
        exact takes_decides fun rest length => star c re rest (by omega)

theorem matchLoop_decides (re text : List Byte) : Decides (matchLoop re text)
    (∃ before rest, text = before ++ rest ∧ Begins (language re) (items re).2 rest) := by
  induction text with
  | nil =>
    obtain ⟨answer, matched, holds⟩ := (matchhere_decides (re.length + 1)).1 re [] (by simp)
    refine ⟨answer, matched, holds.trans ⟨fun begins => ⟨[], [], rfl, begins⟩, ?_⟩⟩
    rintro ⟨before, rest, same, begins⟩
    obtain ⟨rfl, rfl⟩ := List.append_eq_nil_iff.mp same.symm
    exact begins
  | cons t text ih =>
    obtain ⟨answer, matched, holds⟩ :=
      (matchhere_decides (re.length + (t :: text).length + 1)).1 re (t :: text) (by simp)
    rw [matchLoop, matched]
    cases answer with
    | true => exact ⟨true, rfl, iff_of_true rfl ⟨[], _, rfl, holds.mp rfl⟩⟩
    | false =>
      obtain ⟨answer, looped, later⟩ := ih
      refine ⟨answer, looped, later.trans ⟨?_, ?_⟩⟩
      · rintro ⟨before, rest, rfl, begins⟩
        exact ⟨t :: before, rest, rfl, begins⟩
      · rintro ⟨_ | ⟨u, before⟩, rest, same, begins⟩
        · cases same
          exact nomatch holds.mpr begins
        · cases same
          exact ⟨before, rest, rfl, begins⟩

/-- `match` returns, and tells whether the text contains what the pattern stands for. -/
theorem matchRe_contains (re text : List Byte) :
    ∃ answer, matchRe re text = .ok answer ∧ (answer = true ↔ Contains re text) := by
  unfold matchRe Contains
  by_cases anchored : re.head? = some (byte '^')
  · simp only [if_pos anchored]
    obtain ⟨answer, matched, holds⟩ :=
      (matchhere_decides (re.tail.length + text.length + 1)).1 re.tail text (Nat.lt_succ_self _)
    refine ⟨answer, matched, holds.trans ⟨?_, ?_⟩⟩
    · rintro ⟨found, after, same, member, all⟩
      exact ⟨[], found, after, same, member, fun _ => rfl, all⟩
    · rintro ⟨before, found, after, same, member, first, all⟩
      obtain rfl := first anchored
      exact ⟨found, after, same, member, all⟩
  · simp only [if_neg anchored]
    obtain ⟨answer, looped, holds⟩ := matchLoop_decides re text
    refine ⟨answer, looped, holds.trans ⟨?_, ?_⟩⟩
    · rintro ⟨before, _, rfl, found, after, rfl, member, all⟩
      exact ⟨before, found, after, (List.append_assoc ..).symm, member, (absurd · anchored), all⟩
    · rintro ⟨before, found, after, rfl, member, _, all⟩
      exact ⟨before, found ++ after, List.append_assoc .., found, after, rfl, member, all⟩

end Grep

end MemoryEncryption
