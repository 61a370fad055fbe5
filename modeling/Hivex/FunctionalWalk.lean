import Mathlib

/-! Walks along a relation: in a finite set each walk can be led to an end or goes round
a circle, and along a functional relation it does only one of them. -/
namespace FunctionalWalk
open Relation

variable {α : Type} {R : α → α → Prop} {a b c : α}

/-- No step leads on. -/
def Terminal (R : α → α → Prop) (b : α) : Prop := ∀ c, ¬R b c

theorem end_or_circle (finite : {b | ReflTransGen R a b}.Finite) :
    (∃ b, ReflTransGen R a b ∧ Terminal R b) ∨ ∃ b, ReflTransGen R a b ∧ TransGen R b b := by
  by_cases circle : ∃ b, ReflTransGen R a b ∧ TransGen R b b
  · exact Or.inr circle
  · left
    have : Finite {b // ReflTransGen R a b} := finite
    let later (x y : {b // ReflTransGen R a b}) : Prop := TransGen R y.1 x.1
    have : IsTrans _ later := ⟨fun x y z first second => second.trans first⟩
    have : Std.Irrefl later := ⟨fun x round => circle ⟨x.1, x.2, round⟩⟩
    obtain ⟨last, -, least⟩ := (Finite.wellFounded_of_trans_of_irrefl later).has_min Set.univ
      ⟨⟨a, .refl⟩, trivial⟩
    refine ⟨last.1, last.2, fun c step => ?_⟩
    exact least ⟨c, last.2.tail step⟩ trivial (TransGen.single step)

/-- Without a circle what holds wherever it holds one step on holds from the start. -/
theorem induction_of_no_circle {P : α → Prop} (finite : {b | ReflTransGen R a b}.Finite)
    (none : ∀ b, ReflTransGen R a b → ¬TransGen R b b)
    (step : ∀ b, ReflTransGen R a b → (∀ c, R b c → P c) → P b) : P a := by
  have : Finite {b // ReflTransGen R a b} := finite
  let later (x y : {b // ReflTransGen R a b}) : Prop := TransGen R y.1 x.1
  have : IsTrans _ later := ⟨fun x y z first second => second.trans first⟩
  have : Std.Irrefl later := ⟨fun x round => none x.1 x.2 round⟩
  have founded := Finite.wellFounded_of_trans_of_irrefl later
  have all : ∀ x : {b // ReflTransGen R a b}, P x.1 := by
    intro x
    induction x using founded.induction with
    | _ x ih => exact step x.1 x.2 fun c next => ih ⟨c, x.2.tail next⟩ (TransGen.single next)
  exact all ⟨a, .refl⟩

/-- What is reached from a circle leads back to it. -/
theorem circle_returns (functional : Relator.RightUnique R) (circle : TransGen R b b)
    (reached : ReflTransGen R b c) : TransGen R c b := by
  induction reached with
  | refl => exact circle
  | tail reached step ih =>
      obtain ⟨next, first, rest⟩ := TransGen.head'_iff.mp ih
      rw [functional step first]
      rcases ReflTransGen.cases_head rest with rfl | ⟨d, second, others⟩
      · exact circle
      · exact TransGen.head' second others

theorem not_terminal_of_circle (functional : Relator.RightUnique R) (reached : ReflTransGen R a b)
    (circle : TransGen R b b) (reached' : ReflTransGen R a c) : ¬Terminal R c := by
  intro terminal
  rcases ReflTransGen.total_of_right_unique functional reached reached' with later | earlier
  · obtain ⟨next, step, -⟩ := TransGen.head'_iff.mp (circle_returns functional circle later)
    exact terminal next step
  · rcases ReflTransGen.cases_head earlier with rfl | ⟨next, step, -⟩
    · obtain ⟨next, step, -⟩ := TransGen.head'_iff.mp circle
      exact terminal next step
    · exact terminal next step

theorem terminal_iff (functional : Relator.RightUnique R) (finite : {b | ReflTransGen R a b}.Finite) :
    (∃ b, ReflTransGen R a b ∧ Terminal R b) ↔ ¬∃ b, ReflTransGen R a b ∧ TransGen R b b := by
  constructor
  · rintro ⟨last, ends, terminal⟩ ⟨b, reached, circle⟩
    exact not_terminal_of_circle functional reached circle ends terminal
  · exact fun none => (end_or_circle finite).resolve_right none

section Counted
variable {busy : Nat → α → Prop}

/-- More steps never leave more to do. -/
theorem busy_of_le (none : ∀ a, busy 0 a) (step : ∀ n a, busy (n + 1) a ↔ ∃ b, R a b ∧ busy n b) {n m : Nat}
    (fewer : n ≤ m) : busy m a → busy n a := by
  have once : ∀ n a, busy (n + 1) a → busy n a := by
    intro n
    induction n with
    | zero => exact fun a _ => none a
    | succ n ih =>
        intro a more
        obtain ⟨b, next, rest⟩ := (step (n + 1) a).mp more
        exact (step n a).mpr ⟨b, next, ih b rest⟩
  induction fewer with
  | refl => exact id
  | step _ ih => exact fun more => ih (once _ a more)

/-- A walk that is busy for every number of steps goes round a circle. -/
theorem rests_iff (functional : Relator.RightUnique R) (finite : {b | ReflTransGen R a b}.Finite)
    (none : ∀ a, busy 0 a) (step : ∀ n a, busy (n + 1) a ↔ ∃ b, R a b ∧ busy n b) :
    (∃ n, ¬busy n a) ↔ ¬∃ b, ReflTransGen R a b ∧ TransGen R b b := by
  rw [← terminal_iff functional finite]
  constructor
  · rintro ⟨n, rests⟩
    induction n generalizing a with
    | zero => exact absurd (none a) rests
    | succ n ih =>
        by_cases leads : ∃ b, R a b
        · obtain ⟨b, next⟩ := leads
          have later : ¬busy n b := fun more => rests ((step n a).mpr ⟨b, next, more⟩)
          have below : {c | ReflTransGen R b c}.Finite := finite.subset fun c reached => reached.head next
          obtain ⟨last, reached, ends⟩ := ih below later
          exact ⟨last, reached.head next, ends⟩
        · exact ⟨a, .refl, fun c next => leads ⟨c, next⟩⟩
  · rintro ⟨last, reached, ends⟩
    induction reached using ReflTransGen.head_induction_on with
    | refl =>
        refine ⟨1, fun more => ?_⟩
        obtain ⟨b, next, -⟩ := (step 0 last).mp more
        exact ends b next
    | @head a c next _ ih =>
        obtain ⟨n, rests⟩ := ih (finite.subset fun b reached => reached.head next)
        refine ⟨n + 1, fun more => ?_⟩
        obtain ⟨b, other, later⟩ := (step n a).mp more
        rw [functional other next] at later
        exact rests later

end Counted

end FunctionalWalk
