import Mathlib

/-! The integers that the C library reads from text: `strtol` with base 0, on bytes in the C
locale and before the result is cut to its type, and the numerals it accepts as a grammar. -/
namespace Numerals

-- `isspace`
def isSpace (c : UInt8) : Bool := c = 0x20 || (0x09 ≤ c && c ≤ 0x0d)

/-- What a digit or a letter stands for, 36 for any other character. -/
def digitValue (c : UInt8) : Nat :=
  if 0x30 ≤ c ∧ c ≤ 0x39 then c.toNat - 0x30
  else if 0x61 ≤ c ∧ c ≤ 0x7a then c.toNat - 0x61 + 10
  else if 0x41 ≤ c ∧ c ≤ 0x5a then c.toNat - 0x41 + 10
  else 36

def isDigit (base : Nat) (c : UInt8) : Bool := digitValue c < base

/-- The number that `digits` stand for, the most significant first. -/
def number (base : Nat) (digits : List UInt8) : Nat := Nat.ofDigits base (digits.reverse.map digitValue)

/-- The sign before a number and what follows it. -/
def signOf : List UInt8 → Int × List UInt8
  | 0x2d :: rest => (-1, rest)
  | 0x2b :: rest => (1, rest)
  | rest => (1, rest)

-- A prefix 0x counts only before a digit.
def baseOf : List UInt8 → Nat × List UInt8
  | 0x30 :: x :: c :: rest =>
      if (x = 0x78 ∨ x = 0x58) ∧ isDigit 16 c = true then (16, c :: rest) else (8, 0x30 :: x :: c :: rest)
  | 0x30 :: rest => (8, 0x30 :: rest)
  | rest => (10, rest)

/-- `strtol (s, &end, 0)`: the number and the text from `end` on, `none` without a number. -/
def strtol (s : List UInt8) : Option (Int × List UInt8) :=
  let (sign, rest) := signOf (s.dropWhile isSpace)
  let (base, rest) := baseOf rest
  let digits := rest.takeWhile (isDigit base)
  if digits = [] then none else some (sign * number base digits, rest.dropWhile (isDigit base))

inductive Sign : List UInt8 → Int → Prop
  | bare : Sign [] 1
  | plus : Sign [0x2b] 1
  | minus : Sign [0x2d] (-1)

/-- What tells the base of `digits`. -/
inductive Lead (digits : List UInt8) : List UInt8 → Nat → Prop
  | hexadecimal {x : UInt8} (letter : x = 0x78 ∨ x = 0x58) : Lead digits [0x30, x] 16
  | octal (zero : digits.head? = some 0x30) : Lead digits [] 8
  | decimal (nonzero : digits.head? ≠ some 0x30) : Lead digits [] 10

/-- The text of an integer: blanks, a sign, the base and the digits. -/
inductive Numeral : List UInt8 → Int → Prop
  | intro {blanks sign lead digits : List UInt8} {factor : Int} {base : Nat} (blank : ∀ c ∈ blanks, isSpace c = true)
      (signed : Sign sign factor) (based : Lead digits lead base) (some : digits ≠ [])
      (each : ∀ c ∈ digits, isDigit base c = true) :
      Numeral (blanks ++ (sign ++ (lead ++ digits))) (factor * number base digits)

section Reading
variable {s rest digits sign lead : List UInt8} {base : Nat} {factor : Int} {c : UInt8}

theorem isDigit_mono {base' : Nat} (fewer : base ≤ base') (digit : isDigit base c = true) : isDigit base' c = true := by
  simp only [isDigit, decide_eq_true_eq] at digit ⊢
  omega

/-- A digit is neither a blank nor a sign nor the letter of a base. -/
theorem isDigit_apart (digit : isDigit 16 c = true) :
    isSpace c = false ∧ c ≠ 0x2d ∧ c ≠ 0x2b ∧ c ≠ 0x78 ∧ c ≠ 0x58 := by
  revert c
  decide +kernel

theorem signOf_split : ∃ sign, Sign sign (signOf s).1 ∧ s = sign ++ (signOf s).2 := by
  unfold signOf
  split
  · exact ⟨[0x2d], .minus, rfl⟩
  · exact ⟨[0x2b], .plus, rfl⟩
  · exact ⟨[], .bare, rfl⟩

theorem Sign.read (signed : Sign sign factor) (minus : s.head? ≠ some 0x2d) (plus : s.head? ≠ some 0x2b) :
    signOf (sign ++ s) = (factor, s) := by
  cases signed with
  | plus => rfl
  | minus => rfl
  | bare =>
      unfold signOf
      split
      · rename_i split
        simp only [List.nil_append] at split
        rw [split] at minus
        exact absurd rfl minus
      · rename_i split
        simp only [List.nil_append] at split
        rw [split] at plus
        exact absurd rfl plus
      · rfl

theorem baseOf_split : ∃ lead, Lead (baseOf s).2 lead (baseOf s).1 ∧ s = lead ++ (baseOf s).2 := by
  unfold baseOf
  split
  · rename_i x c rest
    split
    · rename_i prefixed
      exact ⟨[0x30, x], .hexadecimal prefixed.1, rfl⟩
    · exact ⟨[], .octal rfl, rfl⟩
  · exact ⟨[], .octal rfl, rfl⟩
  · rename_i other
    refine ⟨[], .decimal ?_, rfl⟩
    intro zero
    obtain ⟨rest, split⟩ := List.head?_eq_some_iff.mp zero
    exact other rest split

theorem Lead.read (based : Lead digits lead base) (some : digits ≠ []) (each : ∀ c ∈ digits, isDigit base c = true) :
    baseOf (lead ++ digits) = (base, digits) := by
  cases based with
  | hexadecimal letter =>
      obtain ⟨c, rest, rfl⟩ := List.exists_cons_of_ne_nil some
      have digit := each c (by simp)
      simp [baseOf, letter, digit]
  | octal zero =>
      obtain ⟨rest, rfl⟩ := List.head?_eq_some_iff.mp zero
      rw [List.nil_append]
      unfold baseOf
      split
      · rename_i x c rest' split
        obtain ⟨-, rfl⟩ := List.cons.inj split
        have digit : isDigit 16 x = true := isDigit_mono (by decide) (each x (by simp))
        have apart := isDigit_apart digit
        rw [if_neg]
        rintro ⟨either, -⟩
        rcases either with lower | upper
        · exact apart.2.2.2.1 lower
        · exact apart.2.2.2.2 upper
      · rename_i split
        rw [split]
      · rename_i other
        exact absurd rfl (other rest)
  | decimal nonzero =>
      rw [List.nil_append]
      unfold baseOf
      split
      · exact absurd rfl nonzero
      · exact absurd rfl nonzero
      · rfl

theorem Lead.base_le (based : Lead digits lead base) : base ≤ 16 := by
  cases based <;> decide

/-- A number starts with a digit, also where its base is told. -/
theorem Lead.starts (based : Lead digits lead base) (some : digits ≠ []) (each : ∀ c ∈ digits, isDigit base c = true) :
    ∃ c rest, lead ++ digits = c :: rest ∧ isDigit 16 c = true := by
  have wide := based.base_le
  obtain ⟨c, rest, rfl⟩ := List.exists_cons_of_ne_nil some
  cases based with
  | hexadecimal => exact ⟨_, _, rfl, by decide⟩
  | octal => exact ⟨c, rest, rfl, isDigit_mono wide (each c (by simp))⟩
  | decimal => exact ⟨c, rest, rfl, isDigit_mono wide (each c (by simp))⟩

theorem Sign.starts (signed : Sign sign factor) (digit : isDigit 16 c = true) :
    (sign ++ c :: rest).dropWhile isSpace = sign ++ c :: rest := by
  cases signed with
  | bare => exact List.dropWhile_cons_of_neg (by simp [(isDigit_apart digit).1])
  | plus => rfl
  | minus => rfl

/-- `strtol` reads a text to its end exactly if it is a numeral, and then its number. -/
theorem strtol_iff {n : Int} : strtol s = some (n, []) ↔ Numeral s n := by
  constructor
  · intro read
    obtain ⟨sign, signed, splitSign⟩ := @signOf_split (s.dropWhile isSpace)
    obtain ⟨lead, based, splitLead⟩ := @baseOf_split (signOf (s.dropWhile isSpace)).2
    unfold strtol at read
    simp only at read
    split at read
    · cases read
    · rename_i some
      obtain ⟨value, ends⟩ := Prod.mk.inj (Option.some.inj read)
      have whole := List.takeWhile_append_dropWhile (p := isDigit (baseOf (signOf (s.dropWhile isSpace)).2).1)
        (l := (baseOf (signOf (s.dropWhile isSpace)).2).2)
      rw [ends, List.append_nil] at whole
      rw [whole] at value some
      have each : ∀ c ∈ (baseOf (signOf (s.dropWhile isSpace)).2).2,
          isDigit (baseOf (signOf (s.dropWhile isSpace)).2).1 c = true := by
        intro c member
        rw [← whole] at member
        exact List.mem_takeWhile_imp member
      have blank : ∀ c ∈ s.takeWhile isSpace, isSpace c = true := fun c member => List.mem_takeWhile_imp member
      have numeral := Numeral.intro blank signed based some each
      rw [← splitLead, ← splitSign, List.takeWhile_append_dropWhile, value] at numeral
      exact numeral
  · rintro ⟨blank, signed, based, some, each⟩
    rename_i blanks sign lead digits factor base
    obtain ⟨c, rest, starts, digit⟩ := based.starts some each
    have apart := isDigit_apart digit
    have front : (blanks ++ (sign ++ (lead ++ digits))).dropWhile isSpace = sign ++ (lead ++ digits) := by
      rw [List.dropWhile_append_of_pos blank, starts]
      exact signed.starts digit
    have read : signOf (sign ++ (lead ++ digits)) = (factor, lead ++ digits) := by
      apply signed.read
      · rw [starts]
        exact fun same => apart.2.1 (Option.some.inj same)
      · rw [starts]
        exact fun same => apart.2.2.1 (Option.some.inj same)
    unfold strtol
    rw [front, read]
    simp only [based.read some each, List.takeWhile_eq_self_iff.mpr each, List.dropWhile_eq_nil_iff.mpr each, some,
      if_false]

/-- A text is the numeral of one integer at most. -/
theorem Numeral.unique {n n' : Int} (first : Numeral s n) (second : Numeral s n') : n = n' := by
  have same := (strtol_iff.mpr first).symm.trans (strtol_iff.mpr second)
  exact congrArg Prod.fst (Option.some.inj same)

end Reading
end Numerals
