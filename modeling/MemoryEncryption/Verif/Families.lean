import Mathlib.Data.List.Nodup
import Mathlib.Tactic.Common

/-!
# Families

What a process table is for, without states, channels and locks: members are
conceived by a living member, born, die and are buried by their parent, and the
children of the dead pass to the root. In every family that came about so, whoever
lives or is dead has a living parent, names are given once, and each death is
reported at most once.
-/

namespace MemoryEncryption

/-- The stages of a member. -/
inductive Life where
  /-- Nobody is there. -/
  | vacant
  /-- On the way. -/
  | unborn
  /-- Alive. -/
  | living
  /-- Dead, and not yet buried. -/
  | dead
  deriving DecidableEq, Repr

/-- A member of a family, with belongings of any type. -/
structure Member (ι ρ : Type) where
  life : Life
  pid : Nat
  parent : Option ι
  origin : Nat
  belongings : ρ
  expects : Option (ι × Bool)

/-- A family. -/
structure Family (ι ρ : Type) where
  member : ι → Member ι ρ
  root : ι
  nextpid : Nat
  exited : List Nat
  reported : List Nat

namespace Family

variable {ι ρ : Type} [DecidableEq ι]

/-- A living member expects a child, in a vacant place. -/
def conceive (f : Family ι ρ) (p np : ι) : Family ι ρ :=
  { f with
    member := fun q =>
      ⟨if q = np then .unborn else (f.member q).life,
        if q = np then f.nextpid else (f.member q).pid, (f.member q).parent,
        if q = np then (f.member p).pid else (f.member q).origin, (f.member q).belongings,
        if q = p then some (np, false) else (f.member q).expects⟩
    nextpid := f.nextpid + 1 }

/-- The child does not come; some belongings are left behind. -/
def abandon (f : Family ι ρ) (p np : ι) (left : ρ) : Family ι ρ :=
  { f with
    member := fun q =>
      ⟨if q = np then .vacant else (f.member q).life, (f.member q).pid, (f.member q).parent,
        (f.member q).origin, if q = np then left else (f.member q).belongings,
        if q = p then none else (f.member q).expects⟩ }

/-- The child is equipped, and has a parent from then on. -/
def equip (f : Family ι ρ) (p np : ι) (belongings : ρ) : Family ι ρ :=
  { f with
    member := fun q =>
      ⟨(f.member q).life, (f.member q).pid, if q = np then some p else (f.member q).parent,
        (f.member q).origin, if q = np then belongings else (f.member q).belongings,
        if q = p then some (np, true) else (f.member q).expects⟩ }

/-- The child is born. -/
def bear (f : Family ι ρ) (p np : ι) : Family ι ρ :=
  { f with
    member := fun q =>
      ⟨if q = np then .living else (f.member q).life, (f.member q).pid, (f.member q).parent,
        (f.member q).origin, (f.member q).belongings,
        if q = p then none else (f.member q).expects⟩ }

/-- A member dies, and its children pass to the root. -/
def die (f : Family ι ρ) (p : ι) : Family ι ρ :=
  { f with
    member := fun q =>
      ⟨if q = p then .dead else (f.member q).life, (f.member q).pid,
        if (f.member q).parent = some p then some f.root else (f.member q).parent,
        (f.member q).origin, (f.member q).belongings, (f.member q).expects⟩
    exited := f.exited ++ [(f.member p).pid] }

/-- A dead member is buried and reported; some belongings are left behind. -/
def bury (f : Family ι ρ) (q : ι) (left : ρ) : Family ι ρ :=
  { f with
    member := fun r =>
      ⟨if r = q then .vacant else (f.member r).life, if r = q then 0 else (f.member r).pid,
        if r = q then none else (f.member r).parent, (f.member r).origin,
        if r = q then left else (f.member r).belongings, (f.member r).expects⟩
    reported := f.reported ++ [(f.member q).pid] }

/-- What can happen in a family. -/
inductive Step (f : Family ι ρ) : Family ι ρ → Prop where
  /-- A living member expects a child. -/
  | conceive (p np : ι) (living : (f.member p).life = .living)
      (free : (f.member p).expects = none) (vacant : (f.member np).life = .vacant) :
      f.Step (f.conceive p np)
  /-- The child does not come. -/
  | abandon (p np : ι) (left : ρ) (expected : (f.member p).expects = some (np, false)) :
      f.Step (f.abandon p np left)
  /-- The child is equipped. -/
  | equip (p np : ι) (belongings : ρ) (expected : (f.member p).expects = some (np, false)) :
      f.Step (f.equip p np belongings)
  /-- The child is born. -/
  | bear (p np : ι) (expected : (f.member p).expects = some (np, true)) : f.Step (f.bear p np)
  /-- A member dies. -/
  | die (p : ι) (living : (f.member p).life = .living) (free : (f.member p).expects = none)
      (mortal : p ≠ f.root) : f.Step (f.die p)
  /-- A dead member is buried by its parent. -/
  | bury (p q : ι) (left : ρ) (living : (f.member p).life = .living)
      (child : (f.member q).parent = some p) (dead : (f.member q).life = .dead) :
      f.Step (f.bury q left)

/-! ## Descent -/

/-- Who expects a child lives, and the child is unborn; everybody born has a living parent. -/
structure Descended (f : Family ι ρ) : Prop where
  root : (f.member f.root).life = .living
  expecting : ∀ p np ready, (f.member p).expects = some (np, ready) → (f.member p).life = .living
  /-- The expected child is unborn, with a parent as soon as it has been equipped. -/
  expected : ∀ p np ready, (f.member p).expects = some (np, ready) →
    (f.member np).life = .unborn ∧ (f.member np).parent = if ready then some p else none
  once : ∀ p q np ready ready', (f.member p).expects = some (np, ready) →
    (f.member q).expects = some (np, ready') → p = q
  vacant : ∀ q, (f.member q).life = .vacant → (f.member q).parent = none
  first : (f.member f.root).parent = none
  other : ∀ q, (f.member q).parent ≠ some q
  /-- Everybody who has been born, and is not the root, has a living parent. -/
  parents : ∀ q, q ≠ f.root → (f.member q).life = .living ∨ (f.member q).life = .dead →
    ∃ p, (f.member q).parent = some p ∧ (f.member p).life = .living

theorem Descended.step {f f' : Family ι ρ} (descended : f.Descended) (step : f.Step f') :
    f'.Descended := by
  obtain ⟨root, expecting, expected, once, vacant, first, other, parents⟩ := descended
  cases step with
  | conceive p np living free empty =>
    -- the place was vacant, so nobody expected it and it has no parent
    constructor <;> simp only [conceive] <;> grind
  | abandon p np left expects =>
    -- the child had not been equipped, so it has no parent to lose
    constructor <;> simp only [abandon] <;> grind
  | equip p np belongings expects => constructor <;> simp only [equip] <;> grind
  | bear p np expects =>
    -- the parent of the child is who expected it, and lives
    constructor <;> simp only [bear] <;> grind
  | die p living free mortal =>
    -- whoever had this parent has the root now, which is another member
    constructor <;> simp only [die] <;> grind
  | bury p q left living child dead =>
    -- the dead are nobody's parents
    constructor <;> simp only [bury] <;> grind

/-! ## Names -/

/-- Names are given once, and so are reports. -/
structure Named (f : Family ι ρ) : Prop where
  /-- Names are given in order, from 1 on. -/
  given : ∀ q, (f.member q).life ≠ .vacant → 0 < (f.member q).pid ∧ (f.member q).pid < f.nextpid
  /-- No two members have the same name. -/
  distinct : ∀ p q, (f.member p).life ≠ .vacant → (f.member q).life ≠ .vacant →
    (f.member p).pid = (f.member q).pid → p = q
  /-- Who has died had a name. -/
  before : ∀ name ∈ f.exited, name < f.nextpid
  /-- The dead have died. -/
  dead : ∀ q, (f.member q).life = .dead → (f.member q).pid ∈ f.exited
  /-- The others have not. -/
  alive : ∀ q, (f.member q).life = .living ∨ (f.member q).life = .unborn →
    (f.member q).pid ∉ f.exited
  /-- Nobody dies twice. -/
  exited : f.exited.Nodup
  /-- Nobody is reported twice. -/
  reported : f.reported.Nodup
  /-- Whoever has been reported has died. -/
  died : ∀ name ∈ f.reported, name ∈ f.exited
  /-- Whoever is still there has not been reported. -/
  unreported : ∀ q, (f.member q).life ≠ .vacant → (f.member q).pid ∉ f.reported
  /-- A child on the way comes from who expects it. -/
  expected : ∀ p np ready, (f.member p).expects = some (np, ready) →
    (f.member np).origin = (f.member p).pid
  /-- The parent of a member is the one it comes from, or the root. -/
  origin : ∀ q, q ≠ f.root → (f.member q).life = .living ∨ (f.member q).life = .dead →
    ∀ p, (f.member q).parent = some p → p = f.root ∨ (f.member p).pid = (f.member q).origin

theorem Named.step {f f' : Family ι ρ} (named : f.Named) (descended : f.Descended)
    (step : f.Step f') : f'.Named := by
  obtain ⟨root, expecting, awaited, once, vacant, first, other, parents⟩ := descended
  obtain ⟨given, distinct, before, dead, alive, exited, reported, died, unreported, expected,
    origin⟩ := named
  cases step with
  | conceive p np living free empty =>
    -- the new name is larger than all names so far
    constructor <;> simp only [conceive] <;> grind
  | abandon p np left expects => constructor <;> simp only [abandon] <;> grind
  | equip p np belongings expects => constructor <;> simp only [equip] <;> grind
  | bear p np expects => constructor <;> simp only [bear] <;> grind
  | die p living free mortal =>
    -- the name was that of a living member, so it was not among the dead
    constructor <;> simp only [die] <;> grind
  | bury p q left lives child gone =>
    -- the name was that of a member who was still there, so it had not been reported
    constructor <;> simp only [bury] <;> grind

end Family

end MemoryEncryption
