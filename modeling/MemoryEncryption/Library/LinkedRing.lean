import Mathlib.Data.List.Nodup

/-!
# Rings of linked nodes

Nodes with links to their neighbours form a ring through a head. As a list, from the
node after the head to the one before it, the ring changes by a node that is taken out
or put in after the head, and a walk along the links is a search in the list. The
updates are those of single links, in the order in which programs make them. Nothing in
this module names a particular program.
-/

namespace MemoryEncryption

open Function

/-- The links of nodes to their neighbours. -/
structure Links (α : Type) where
  /-- The node after a node. -/
  next : α → α
  /-- The node before a node. -/
  prev : α → α

variable {rounds : Nat}

namespace Links

variable {α : Type} {links links' : Links α} {a b z : α} {nodes : List α}

/-- The links lead from one node through those of the list to another one, and back. -/
def Path (links : Links α) : α → List α → α → Prop
  | a, [], z => links.next a = z ∧ links.prev z = a
  | a, b :: rest, z => (links.next a = b ∧ links.prev b = a) ∧ links.Path b rest z

/-- The links lead from the head through the nodes of the list to the head. -/
structure Ring (links : Links α) (head : α) (nodes : List α) : Prop where
  /-- The links lead through the nodes. -/
  path : links.Path head nodes head
  /-- No node is passed twice. -/
  nodup : (head :: nodes).Nodup

/-- The links in the other direction. -/
def flip (links : Links α) : Links α := ⟨links.prev, links.next⟩

theorem path_append {rest : List α} :
    links.Path a (nodes ++ b :: rest) z ↔ links.Path a nodes b ∧ links.Path b rest z := by
  induction nodes generalizing a with
  | nil => rfl
  | cons c nodes ih => simp only [List.cons_append, Path, ih, and_assoc]

theorem Path.flip (path : links.Path a nodes z) : links.flip.Path z nodes.reverse a := by
  induction nodes generalizing a with
  | nil => exact ⟨path.2, path.1⟩
  | cons b nodes ih =>
    rw [List.reverse_cons]
    exact path_append.mpr ⟨ih path.2, path.1.2, path.1.1⟩

theorem Path.congr (path : links.Path a nodes z)
    (next : ∀ x ∈ a :: nodes, links'.next x = links.next x)
    (prev : ∀ x ∈ nodes ++ [z], links'.prev x = links.prev x) : links'.Path a nodes z := by
  induction nodes generalizing a with
  | nil =>
    refine ⟨?_, ?_⟩
    · rw [next a (by simp)]
      exact path.1
    · rw [prev z (by simp)]
      exact path.2
  | cons b nodes ih =>
    refine ⟨⟨?_, ?_⟩, ih path.2 ?_ ?_⟩
    · rw [next a (by simp)]
      exact path.1.1
    · rw [prev b (by simp)]
      exact path.1.2
    · intro x member
      exact next x (List.mem_cons_of_mem _ member)
    · intro x member
      exact prev x (List.mem_cons_of_mem _ member)

theorem Path.prev_mem (path : links.Path a nodes z) : links.prev z ∈ a :: nodes := by
  induction nodes generalizing a with
  | nil => simp [path.2]
  | cons b nodes ih => exact List.mem_cons_of_mem _ (ih path.2)

/-- The links forth and back undo each other along a path. -/
theorem Path.prev_next (path : links.Path a nodes z) {x : α} (member : x ∈ a :: nodes) :
    links.prev (links.next x) = x := by
  induction nodes generalizing a with
  | nil =>
    obtain rfl := List.mem_singleton.mp member
    rw [path.1, path.2]
  | cons b nodes ih =>
    rcases List.mem_cons.mp member with rfl | later
    · rw [path.1.1, path.1.2]
    · exact ih path.2 later

/-- In a ring the links forth and back undo each other. -/
theorem Ring.inverse {head : α} (ring : links.Ring head nodes) {x : α}
    (member : x ∈ head :: nodes) :
    links.prev (links.next x) = x ∧ links.next (links.prev x) = x := by
  refine ⟨ring.path.prev_next member, ?_⟩
  have back : x ∈ head :: nodes.reverse := by simpa using member
  exact ring.path.flip.prev_next back

theorem Path.retarget {end' : α} (path : links.Path a nodes z) (nodup : (a :: nodes).Nodup)
    (last : links'.next (links.prev z) = end') (back : links'.prev end' = links.prev z)
    (next : ∀ x ∈ a :: nodes, x ≠ links.prev z → links'.next x = links.next x)
    (prev : ∀ x ∈ nodes, links'.prev x = links.prev x) : links'.Path a nodes end' := by
  induction nodes generalizing a with
  | nil =>
    rw [path.2] at last back
    exact ⟨last, back⟩
  | cons b nodes ih =>
    have other : a ≠ links.prev z := by
      intro same
      have member := path.2.prev_mem
      rw [← same] at member
      exact (List.nodup_cons.mp nodup).1 member
    refine ⟨⟨?_, ?_⟩, ih path.2 (List.nodup_cons.mp nodup).2 ?_ ?_⟩
    · rw [next a (by simp) other]
      exact path.1.1
    · rw [prev b (by simp)]
      exact path.1.2
    · intro x member
      exact next x (List.mem_cons_of_mem _ member)
    · intro x member
      exact prev x (List.mem_cons_of_mem _ member)

section

variable [DecidableEq α]

/-- `a->next = b`. -/
def setNext (links : Links α) (a b : α) : Links α :=
  { links with next := Function.update links.next a b }

/-- `a->prev = b`. -/
def setPrev (links : Links α) (a b : α) : Links α :=
  { links with prev := Function.update links.prev a b }

/-- Take a node out. -/
def unlink (links : Links α) (b : α) : Links α :=
  let links := links.setPrev (links.next b) (links.prev b)
  links.setNext (links.prev b) (links.next b)

/-- Put a node after the head. -/
def push (links : Links α) (head b : α) : Links α :=
  let links := links.setNext b (links.next head)
  let links := links.setPrev b head
  let links := links.setPrev (links.next head) b
  links.setNext head b

/-- The link forth that changes when a node is taken out. -/
theorem unlink_next (links : Links α) (b : α) :
    (links.unlink b).next = update links.next (links.prev b) (links.next b) := by
  have kept : update links.prev (links.next b) (links.prev b) b = links.prev b := by
    by_cases own : b = links.next b
    · rw [← own, update_self]
    · rw [update_of_ne own]
  simp only [unlink, setPrev, setNext, kept]

/-- The link back that changes when a node is taken out. -/
theorem unlink_prev (links : Links α) (b : α) :
    (links.unlink b).prev = update links.prev (links.next b) (links.prev b) := rfl

theorem Ring.unlink {head : α} {before after : List α}
    (ring : links.Ring head (before ++ b :: after)) :
    (links.unlink b).Ring head (before ++ after) := by
  obtain ⟨path, nodup⟩ := ring
  obtain ⟨first, second⟩ := path_append.mp path
  rw [← List.cons_append, List.nodup_append] at nodup
  obtain ⟨front, back, apart⟩ := nodup
  have linked := first.prev_mem
  refine ⟨?_, ?_⟩
  · cases after with
    | nil =>
      rw [List.append_nil]
      obtain ⟨forth, _⟩ := second
      apply first.retarget front
      · rw [unlink_next, update_self, forth]
      · rw [unlink_prev, ← forth, update_self]
      · intro x _ other
        rw [unlink_next, update_of_ne other]
      · intro x member
        rw [unlink_prev, forth]
        apply update_of_ne
        rintro rfl
        exact (List.nodup_cons.mp front).1 member
    | cons n after =>
      obtain ⟨⟨forth, _⟩, rest⟩ := second
      have away : ∀ x ∈ head :: before, x ∉ n :: after := by
        intro x member later
        exact apart x member x (List.mem_cons_of_mem _ later) rfl
      refine path_append.mpr ⟨first.retarget front ?_ ?_ ?_ ?_, rest.congr ?_ ?_⟩
      · rw [unlink_next, update_self, forth]
      · rw [unlink_prev, ← forth, update_self]
      · intro x _ other
        rw [unlink_next, update_of_ne other]
      · intro x member
        rw [unlink_prev, forth]
        apply update_of_ne
        rintro rfl
        exact away x (List.mem_cons_of_mem _ member) (by simp)
      · intro x member
        rw [unlink_next]
        apply update_of_ne
        rintro rfl
        exact away _ linked member
      · intro x member
        rw [unlink_prev, forth]
        apply update_of_ne
        rintro rfl
        rcases List.mem_append.mp member with later | last
        · exact (List.nodup_cons.mp (List.nodup_cons.mp back).2).1 later
        · obtain rfl := List.mem_singleton.mp last
          exact away x (by simp) (by simp)
  · rw [← List.cons_append, List.nodup_append]
    refine ⟨front, (List.nodup_cons.mp back).2, ?_⟩
    intro x member y later
    exact apart x member y (List.mem_cons_of_mem _ later)

/-- The links forth that change when a node is put after the head. -/
theorem push_next (links : Links α) (head b : α) : (links.push head b).next =
    update (update links.next b (links.next head)) head b := rfl

/-- The links back that change when a node is put after the head. -/
theorem push_prev (links : Links α) {head : α} (other : head ≠ b) : (links.push head b).prev =
    update (update links.prev b head) (links.next head) b := by
  simp only [push, setPrev, setNext, update_of_ne other]

/-- Putting a node after the head puts it at the front of the list. -/
theorem Ring.push {head : α} (ring : links.Ring head nodes) (fresh : b ∉ head :: nodes) :
    (links.push head b).Ring head (b :: nodes) := by
  obtain ⟨path, nodup⟩ := ring
  obtain ⟨other, absent⟩ := not_or.mp (mt List.mem_cons.mpr fresh)
  have forth : b ≠ links.next head := by
    have member : links.next head ∈ head :: nodes.reverse := path.flip.prev_mem
    rintro rfl
    exact fresh (by simpa using member)
  have back := links.push_prev (Ne.symm other)
  refine ⟨⟨⟨?_, ?_⟩, ?_⟩, ?_⟩
  · exact update_self ..
  · rw [back, update_of_ne forth, update_self]
  · cases nodes with
    | nil =>
      refine ⟨?_, ?_⟩
      · rw [push_next, update_of_ne other, update_self]
        exact path.1
      · rw [back, path.1, update_self]
    | cons c rest =>
      have first := path.1.1
      have tail := List.nodup_cons.mp (List.nodup_cons.mp nodup).2
      refine ⟨⟨?_, ?_⟩, path.2.congr ?_ ?_⟩
      · rw [push_next, update_of_ne other, update_self, first]
      · rw [back, first, update_self]
      · intro x member
        have notHead : x ≠ head := by
          rintro rfl
          exact (List.nodup_cons.mp nodup).1 member
        have notNew : x ≠ b := by
          rintro rfl
          exact absent member
        rw [push_next, update_of_ne notHead, update_of_ne notNew]
      · intro x member
        have notFirst : x ≠ links.next head := by
          rw [first]
          rintro rfl
          rcases List.mem_append.mp member with later | last
          · exact tail.1 later
          · obtain rfl := List.mem_singleton.mp last
            exact (List.nodup_cons.mp nodup).1 (by simp)
        have notNew : x ≠ b := by
          rintro rfl
          rcases List.mem_append.mp member with later | last
          · exact absent (List.mem_cons_of_mem _ later)
          · exact other (List.mem_singleton.mp last)
        rw [back, update_of_ne notFirst, update_of_ne notNew]
  · rw [List.nodup_cons] at nodup ⊢
    refine ⟨?_, List.nodup_cons.mpr ⟨absent, nodup.2⟩⟩
    rw [List.mem_cons, not_or]
    exact ⟨Ne.symm other, nodup.1⟩

variable {ε : Type}

/-- Walk along links until the stop, or until a node passes the test. -/
def walk (endless : ε) (stop : α) (step : α → α) (test : α → Bool) :
    Nat → α → Except ε (Option α)
  | 0, _ => .error endless
  | rounds + 1, node =>
    if node = stop then .ok none
    else if test node then .ok (some node)
    else walk endless stop step test rounds (step node)

/-- A walk forth along a path is a search in the list. -/
theorem Path.walk_next (path : links.Path a nodes z) (apart : z ∉ nodes) (endless : ε)
    (test : α → Bool) (enough : nodes.length < rounds) :
    walk endless z links.next test rounds (links.next a) = .ok (nodes.find? test) := by
  induction nodes generalizing a rounds with
  | nil =>
    obtain ⟨rounds, rfl⟩ : ∃ left, rounds = left + 1 := ⟨rounds - 1, by omega⟩
    rw [path.1, walk, if_pos rfl]
    rfl
  | cons b nodes ih =>
    obtain ⟨rounds, rfl⟩ : ∃ left, rounds = left + 1 := ⟨rounds - 1, by omega⟩
    rw [List.mem_cons, not_or] at apart
    rw [path.1.1, walk, if_neg (Ne.symm apart.1), List.find?_cons]
    cases passes : test b with
    | true => rfl
    | false => exact ih path.2 apart.2 (by simpa using enough)

/-- A walk back along a path is a search from the end of the list. -/
theorem Path.walk_prev (path : links.Path a nodes z) (apart : a ∉ nodes) (endless : ε)
    (test : α → Bool) (enough : nodes.length < rounds) :
    walk endless a links.prev test rounds (links.prev z) = .ok (nodes.reverse.find? test) :=
  path.flip.walk_next (by simpa using apart) endless test (by simpa using enough)

end

end Links

end MemoryEncryption
