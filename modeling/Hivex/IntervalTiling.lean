import Mathlib

/-! Intervals of addresses cut into consecutive pieces whose lengths are stored at
their starts, as in a page of blocks or a file of pages. -/
namespace IntervalTiling

variable {len len' : Nat → Nat} {a b c x y : Nat} {xs ys : List Nat}

/-- `starts` cuts `[a, b)` into pieces, the one at `x` being `len x > 0` long. -/
def Tiles (len : Nat → Nat) : Nat → Nat → List Nat → Prop
  | a, b, [] => a = b
  | a, b, x :: xs => x = a ∧ 0 < len a ∧ Tiles len (a + len a) b xs

instance Tiles.decidable (len : Nat → Nat) : ∀ a b xs, Decidable (Tiles len a b xs)
  | a, b, [] => inferInstanceAs (Decidable (a = b))
  | a, b, x :: xs =>
      have := Tiles.decidable len (a + len a) b xs
      inferInstanceAs (Decidable (x = a ∧ 0 < len a ∧ Tiles len (a + len a) b xs))

theorem Tiles.le (tiles : Tiles len a b xs) : a ≤ b := by
  induction xs generalizing a with
  | nil => exact Nat.le_of_eq tiles
  | cons x xs ih =>
      have rest := ih tiles.2.2
      omega

theorem Tiles.mem (tiles : Tiles len a b xs) (member : x ∈ xs) :
    a ≤ x ∧ x + len x ≤ b ∧ 0 < len x := by
  induction xs generalizing a with
  | nil => cases member
  | cons y xs ih =>
      obtain ⟨rfl, positive, rest⟩ := tiles
      rcases List.mem_cons.mp member with rfl | later
      · exact ⟨Nat.le_refl _, rest.le, positive⟩
      · have bounds := ih rest later
        exact ⟨by omega, bounds.2⟩

-- Two pieces never overlap.
theorem Tiles.apart (tiles : Tiles len a b xs) (left : x ∈ xs) (right : y ∈ xs)
    (different : x ≠ y) : x + len x ≤ y ∨ y + len y ≤ x := by
  induction xs generalizing a with
  | nil => cases left
  | cons z xs ih =>
      obtain ⟨rfl, positive, rest⟩ := tiles
      rcases List.mem_cons.mp left with rfl | leftLater
      · rcases List.mem_cons.mp right with rfl | rightLater
        · exact absurd rfl different
        · exact Or.inl (rest.mem rightLater).1
      · rcases List.mem_cons.mp right with rfl | rightLater
        · exact Or.inr (rest.mem leftLater).1
        · exact ih rest leftLater rightLater

theorem Tiles.congr (tiles : Tiles len a b xs) (same : ∀ x ∈ xs, len' x = len x) :
    Tiles len' a b xs := by
  induction xs generalizing a with
  | nil => exact tiles
  | cons x xs ih =>
      obtain ⟨rfl, positive, rest⟩ := tiles
      have head := same x (by simp)
      refine ⟨rfl, by omega, ?_⟩
      rw [head]
      exact ih rest fun y member => same y (by simp [member])

theorem Tiles.append (front : Tiles len a b xs) (back : Tiles len b c ys) :
    Tiles len a c (xs ++ ys) := by
  induction xs generalizing a with
  | nil => obtain rfl := front; exact back
  | cons x xs ih => exact ⟨front.1, front.2.1, ih front.2.2⟩

theorem Tiles.single (positive : 0 < len a) (ends : a + len a = b) : Tiles len a b [a] :=
  ⟨rfl, positive, ends⟩

theorem Tiles.concat (front : Tiles len a b xs) (positive : 0 < len b) (ends : b + len b = c) :
    Tiles len a c (xs ++ [b]) :=
  front.append (Tiles.single positive ends)

-- Cut off the last piece.
theorem Tiles.dropLast (tiles : Tiles len a c (xs ++ [x])) :
    Tiles len a x xs ∧ 0 < len x ∧ x + len x = c := by
  induction xs generalizing a with
  | nil =>
      obtain ⟨rfl, positive, ends⟩ := tiles
      exact ⟨rfl, positive, ends⟩
  | cons y xs ih =>
      have rest := ih tiles.2.2
      exact ⟨⟨tiles.1, tiles.2.1, rest.1⟩, rest.2⟩

theorem Tiles.ne_nil (tiles : Tiles len a b xs) (proper : a < b) : xs ≠ [] := by
  rintro rfl
  exact Nat.ne_of_lt proper tiles

theorem Tiles.unique (left : Tiles len a b xs) (right : Tiles len a b ys) : xs = ys := by
  induction xs generalizing a ys with
  | nil =>
      obtain rfl := left
      cases ys with
      | nil => rfl
      | cons y ys =>
          have beyond := right.2.2.le
          have positive := right.2.1
          omega
  | cons x xs ih =>
      obtain ⟨rfl, positive, rest⟩ := left
      cases ys with
      | nil =>
          obtain rfl := right
          have beyond := rest.le
          omega
      | cons y ys =>
          obtain ⟨rfl, _, rightRest⟩ := right
          rw [ih rest rightRest]

-- A common divisor of the first address and of all lengths divides every boundary.
theorem Tiles.aligned (tiles : Tiles len a b xs) (unit : Nat) (start : a % unit = 0)
    (lengths : ∀ x ∈ xs, len x % unit = 0) : b % unit = 0 ∧ ∀ x ∈ xs, x % unit = 0 := by
  induction xs generalizing a with
  | nil => obtain rfl := tiles; exact ⟨start, fun x member => by cases member⟩
  | cons x xs ih =>
      obtain ⟨rfl, positive, rest⟩ := tiles
      have next : (x + len x) % unit = 0 := by
        rw [Nat.add_mod, start, lengths x (by simp)]
        simp
      have tail := ih rest next fun y member => lengths y (by simp [member])
      refine ⟨tail.1, fun y member => ?_⟩
      rcases List.mem_cons.mp member with rfl | later
      · exact start
      · exact tail.2 y later

end IntervalTiling
