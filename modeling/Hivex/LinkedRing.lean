import Mathlib.Data.Set.Basic
import Mathlib.Logic.Function.Iterate

/-! Doubly linked rings: a set of nodes on which `next` and `prev` undo each other.
Unlinking a node joins its two neighbours, as code does that stores one link in each. -/
namespace LinkedRing

variable {Node : Type} {members : Set Node} {next prev next' prev' : Node → Node} {x y : Node}

structure Linked (members : Set Node) (next prev : Node → Node) : Prop where
  next_mem : ∀ x ∈ members, next x ∈ members
  prev_mem : ∀ x ∈ members, prev x ∈ members
  prev_next : ∀ x ∈ members, prev (next x) = x
  next_prev : ∀ x ∈ members, next (prev x) = x

/-- All nodes are on one ring. -/
def OneRing (members : Set Node) (next : Node → Node) : Prop :=
  ∀ x ∈ members, ∀ y ∈ members, ∃ n, next^[n] x = y

theorem Linked.congr (linked : Linked members next prev) (sameNext : ∀ x ∈ members, next' x = next x)
    (samePrev : ∀ x ∈ members, prev' x = prev x) : Linked members next' prev' where
  next_mem := fun x member => by
    rw [sameNext x member]
    exact linked.next_mem x member
  prev_mem := fun x member => by
    rw [samePrev x member]
    exact linked.prev_mem x member
  prev_next := fun x member => by
    rw [sameNext x member, samePrev _ (linked.next_mem x member)]
    exact linked.prev_next x member
  next_prev := fun x member => by
    rw [samePrev x member, sameNext _ (linked.prev_mem x member)]
    exact linked.next_prev x member

theorem Linked.alone_iff (linked : Linked members next prev) (member : x ∈ members) :
    prev x = x ↔ next x = x := by
  constructor
  · intro alone
    have back := linked.next_prev x member
    rwa [alone] at back
  · intro alone
    have back := linked.prev_next x member
    rwa [alone] at back

section Unlink
variable [DecidableEq Node]

/-- The links after `x` has been taken out. -/
def nextWithout (next prev : Node → Node) (x : Node) : Node → Node :=
  Function.update next (prev x) (next x)

def prevWithout (next prev : Node → Node) (x : Node) : Node → Node :=
  Function.update prev (next x) (prev x)

theorem Linked.unlink (linked : Linked members next prev) (member : x ∈ members) :
    Linked (members \ {x}) (nextWithout next prev x) (prevWithout next prev x) := by
  have nextInj : ∀ y ∈ members, next y = x → y = prev x := by
    intro y inside same
    rw [← linked.prev_next y inside, same]
  have prevInj : ∀ y ∈ members, prev y = x → y = next x := by
    intro y inside same
    rw [← linked.next_prev y inside, same]
  constructor
  · rintro y ⟨inside, different⟩
    unfold nextWithout
    by_cases here : y = prev x
    · rw [here, Function.update_self]
      constructor
      · exact linked.next_mem x member
      · intro alone
        apply different
        rw [here]
        exact (linked.alone_iff member).mpr alone
    · rw [Function.update_of_ne here]
      exact ⟨linked.next_mem y inside, fun same => here (nextInj y inside same)⟩
  · rintro y ⟨inside, different⟩
    unfold prevWithout
    by_cases here : y = next x
    · rw [here, Function.update_self]
      constructor
      · exact linked.prev_mem x member
      · intro alone
        apply different
        rw [here]
        exact (linked.alone_iff member).mp alone
    · rw [Function.update_of_ne here]
      exact ⟨linked.prev_mem y inside, fun same => here (prevInj y inside same)⟩
  · rintro y ⟨inside, different⟩
    unfold nextWithout prevWithout
    by_cases here : y = prev x
    · rw [here, Function.update_self, Function.update_self]
    · rw [Function.update_of_ne here]
      have away : next y ≠ next x := by
        intro same
        apply different
        rw [← linked.prev_next y inside, same, linked.prev_next x member]
        rfl
      rw [Function.update_of_ne away]
      exact linked.prev_next y inside
  · rintro y ⟨inside, different⟩
    unfold nextWithout prevWithout
    by_cases here : y = next x
    · rw [here, Function.update_self, Function.update_self]
    · rw [Function.update_of_ne here]
      have away : prev y ≠ prev x := by
        intro same
        apply different
        rw [← linked.next_prev y inside, same, linked.next_prev x member]
        rfl
      rw [Function.update_of_ne away]
      exact linked.next_prev y inside

end Unlink

end LinkedRing
