import Mathlib

/-! Text files read line by line, hexadecimal numerals, and bytes written as pairs
of digits. A text is the list of its characters; a raw line keeps its line end, so
the last line of a file may have none. -/
namespace LineText

abbrev Text := List Char

def isSpace (c : Char) : Bool := c = ' ' || (9 ≤ c.toNat && c.toNat ≤ 13)

def trimEnd (text : Text) : Text := text.rdropWhile isSpace

-- One line end is dropped, and only at the end.
def chomp (text : Text) : Text :=
  if text.getLast? = some '\n' then text.dropLast else text

@[simp] theorem chomp_line (line : Text) : chomp (line ++ ['\n']) = line := by
  simp [chomp]

theorem chomp_of_newlineFree {line : Text} (free : '\n' ∉ line) : chomp line = line := by
  have other : line.getLast? ≠ some '\n' := by
    intro last
    exact free (List.mem_of_getLast? last)
  simp [chomp, other]

/-- The lines of a file as a reader returns them. -/
def rawLines : Text → List Text
  | [] => []
  | c :: rest =>
      if c = '\n' then [c] :: rawLines rest
      else match rawLines rest with
        | [] => [[c]]
        | line :: lines => (c :: line) :: lines

theorem rawLines_line {line : Text} (free : '\n' ∉ line) (rest : Text) :
    rawLines (line ++ '\n' :: rest) = (line ++ ['\n']) :: rawLines rest := by
  induction line with
  | nil => simp [rawLines]
  | cons c line ih =>
      have other : c ≠ '\n' := fun same => free (by simp [same])
      have tail : '\n' ∉ line := fun member => free (List.mem_cons_of_mem c member)
      simp [rawLines, other, ih tail]

def unlines (lines : List Text) : Text := lines.flatMap (· ++ ['\n'])

@[simp] theorem unlines_nil : unlines [] = [] := rfl

@[simp] theorem unlines_append (first second : List Text) :
    unlines (first ++ second) = unlines first ++ unlines second := by
  simp [unlines]

theorem rawLines_unlines {lines : List Text} (free : ∀ line ∈ lines, '\n' ∉ line) :
    rawLines (unlines lines) = lines.map (· ++ ['\n']) := by
  induction lines with
  | nil => rfl
  | cons line lines ih =>
      have split : unlines (line :: lines) = line ++ '\n' :: unlines lines := by
        simp [unlines]
      rw [split, rawLines_line (free line (by simp)),
        ih fun other member => free other (List.mem_cons_of_mem line member)]
      rfl

/-- What follows `start` in a text that begins with it. -/
def after (start text : Text) : Option Text :=
  if start <+: text then some (text.drop start.length) else none

@[simp] theorem after_append (start rest : Text) : after start (start ++ rest) = some rest := by
  simp [after]

theorem after_eq_some {start text rest : Text} (found : after start text = some rest) :
    text = start ++ rest := by
  unfold after at found
  split at found
  · next begins =>
      obtain ⟨tail, rfl⟩ := begins
      simpa using found
  · contradiction

theorem after_none_of_head {c d : Char} {start rest : Text} (differ : c ≠ d) :
    after (c :: start) (d :: rest) = none := by
  have apart : ¬ (c :: start <+: d :: rest) := by
    intro begins
    exact differ (List.cons_prefix_cons.mp begins).1
  simp [after, apart]

section Hexadecimal

def isXDigit (c : Char) : Bool :=
  c.isDigit || ('a' ≤ c && c ≤ 'f') || ('A' ≤ c && c ≤ 'F')

-- Letters stand for nine more than their low four bits.
def nibble (c : Char) : Nat := if c.isAlpha then (c.toNat + 9) % 16 else c.toNat % 16

def hexadecimal (n : Nat) : Text := Nat.toDigits 16 n

def hexadecimalPadded (width n : Nat) : Text := (hexadecimal n).leftpad width '0'

def hexValue (digits : Text) : Nat := digits.foldl (fun value c => 16 * value + nibble c) 0

theorem digitChar_spec {digit : Nat} (small : digit < 16) :
    isXDigit digit.digitChar = true ∧ nibble digit.digitChar = digit := by
  interval_cases digit <;> decide

@[simp] theorem nibble_digitChar {digit : Nat} (small : digit < 16) :
    nibble digit.digitChar = digit :=
  (digitChar_spec small).2

theorem hexadecimal_small {n : Nat} (small : n < 16) : hexadecimal n = [n.digitChar] :=
  Nat.toDigits_of_lt_base small

theorem hexadecimal_large {n : Nat} (large : 16 ≤ n) :
    hexadecimal n = hexadecimal (n / 16) ++ [(n % 16).digitChar] :=
  Nat.toDigits_of_base_le (by omega) large

theorem isXDigit_of_mem_hexadecimal {n : Nat} : ∀ c ∈ hexadecimal n, isXDigit c = true := by
  induction n using Nat.strong_induction_on with
  | _ n ih =>
      intro c member
      by_cases small : n < 16
      · rw [hexadecimal_small small, List.mem_singleton] at member
        rw [member]
        exact (digitChar_spec small).1
      · have large : 16 ≤ n := by omega
        rw [hexadecimal_large large, List.mem_append, List.mem_singleton] at member
        rcases member with earlier | last
        · exact ih (n / 16) (by omega) c earlier
        · rw [last]
          exact (digitChar_spec (Nat.mod_lt n (by omega))).1

theorem hexValue_hexadecimal (n : Nat) : hexValue (hexadecimal n) = n := by
  induction n using Nat.strong_induction_on with
  | _ n ih =>
      by_cases small : n < 16
      · simp [hexadecimal_small small, hexValue, small]
      · have large : 16 ≤ n := by omega
        have leading := ih (n / 16) (by omega)
        rw [hexValue] at leading
        rw [hexadecimal_large large, hexValue, List.foldl_append, leading]
        have digit : nibble (n % 16).digitChar = n % 16 := nibble_digitChar (Nat.mod_lt n (by omega))
        simp only [List.foldl_cons, List.foldl_nil, digit]
        omega

theorem hexadecimal_ne_nil (n : Nat) : hexadecimal n ≠ [] := Nat.toDigits_ne_nil

theorem hexValue_padded (width n : Nat) : hexValue (hexadecimalPadded width n) = n := by
  have zeros : ∀ count : Nat,
      (List.replicate count '0').foldl (fun value c => 16 * value + nibble c) 0 = 0 := by
    intro count
    induction count with
    | zero => rfl
    | succ count ih => simpa [List.replicate_succ, nibble] using ih
  have value := hexValue_hexadecimal n
  rw [hexValue] at value
  rw [hexValue, hexadecimalPadded, List.leftpad, List.foldl_append, zeros, value]

theorem length_hexadecimalPadded {width n : Nat} (positive : 0 < width) (fits : n < 16 ^ width) :
    (hexadecimalPadded width n).length = width := by
  have short : (hexadecimal n).length ≤ width :=
    (Nat.length_toDigits_le_iff (by omega) positive).mpr fits
  rw [hexadecimalPadded, List.leftpad, List.length_append, List.length_replicate]
  omega

theorem isXDigit_of_mem_padded {width n : Nat} :
    ∀ c ∈ hexadecimalPadded width n, isXDigit c = true := by
  intro c member
  rw [hexadecimalPadded, List.leftpad, List.mem_append] at member
  rcases member with zero | digit
  · rw [List.eq_of_mem_replicate zero]
    decide
  · exact isXDigit_of_mem_hexadecimal c digit

/-- Bytes from digits, the high half first; a missing last half is zero. -/
def packNibbles : Text → List UInt8
  | [] => []
  | [high] => [UInt8.ofNat (16 * nibble high)]
  | high :: low :: rest => UInt8.ofNat (16 * nibble high + nibble low) :: packNibbles rest

def byteDigits (byte : UInt8) : Text := hexadecimalPadded 2 byte.toNat

theorem byteDigits_eq (byte : UInt8) :
    byteDigits byte = [(byte.toNat / 16).digitChar, (byte.toNat % 16).digitChar] := by
  have bound : byte.toNat < 256 := byte.toNat_lt
  rw [byteDigits, hexadecimalPadded]
  by_cases small : byte.toNat < 16
  · have high : byte.toNat / 16 = 0 := by omega
    have low : byte.toNat % 16 = byte.toNat := by omega
    rw [hexadecimal_small small, high, low]
    rfl
  · rw [hexadecimal_large (by omega), hexadecimal_small (by omega)]
    rfl

theorem packNibbles_byteDigits (bytes : List UInt8) :
    packNibbles (bytes.flatMap byteDigits) = bytes := by
  induction bytes with
  | nil => rfl
  | cons byte bytes ih =>
      have bound : byte.toNat < 256 := byte.toNat_lt
      have high : nibble (byte.toNat / 16).digitChar = byte.toNat / 16 := nibble_digitChar (by omega)
      have low : nibble (byte.toNat % 16).digitChar = byte.toNat % 16 := nibble_digitChar (by omega)
      have whole : 16 * (byte.toNat / 16) + byte.toNat % 16 = byte.toNat := by omega
      rw [List.flatMap_cons, byteDigits_eq]
      simp only [List.cons_append, List.nil_append, packNibbles, high, low, whole, ih,
        UInt8.ofNat_toNat]

end Hexadecimal

end LineText
