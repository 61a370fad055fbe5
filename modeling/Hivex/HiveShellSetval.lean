import Hivex.HiveWrite
import Hivex.Numerals

/-! The `setval` command of the shell up to its call of `hivex_node_set_values`: how the lines
become the array of values. -/
namespace Hivex.Setval
open ByteMemory Commands Numerals

/-- Why `cmd_setval` gives up. -/
inductive SetvalStop where
  | invalidInteger (field : String) (code : Nat)
  | outOfRange (field : String)
  | endOfInput
  | not7Bit
  | trailingGarbage
  | cannotParse
  -- An `int` overflows, which C leaves undefined.
  | overflow
deriving DecidableEq

/-- `xstrtol` and `xstrtoll` with base 0 and no suffixes, for a type of `bits` bits: the number or
the bits of the error. -/
def xstrtol (bits : Nat) (s : List UInt8) : Except Nat Int :=
  match strtol s with
  | none => .error 4
  | some (n, rest) =>
      let err := if -2 ^ (bits - 1) ≤ n ∧ n < 2 ^ (bits - 1) then 0 else 1
      let err := if rest = [] then err else err ||| 2
      if err = 0 then .ok n else .error err

def getInteger (field : String) (s : List UInt8) : Except SetvalStop Int :=
  (xstrtol 64 s).mapError (SetvalStop.invalidInteger field)

/-- An integer that has to fit an unsigned type with this maximum. -/
def getUnsigned (field : String) (max : Nat) (s : List UInt8) : Except SetvalStop Nat := do
  let n ← getInteger field s
  if n < 0 ∨ n > max then throw (.outOfRange field)
  return n.toNat

def hivexMaxValues : Nat := 1000
def uint32Max : Nat := 0xffffffff

def getXdigit (c : UInt8) : Int :=
  if 0x30 ≤ c ∧ c ≤ 0x39 then c.toNat - 0x30
  else if 0x61 ≤ c ∧ c ≤ 0x66 then c.toNat - 0x61 + 10
  else if 0x41 ≤ c ∧ c ≤ 0x46 then c.toNat - 0x41 + 10
  else -1

def cIsxdigit (c : UInt8) : Bool :=
  (0x30 ≤ c && c ≤ 0x39) || (0x41 ≤ c && c ≤ 0x46) || (0x61 ≤ c && c ≤ 0x66)

/-- The inner loop: up to two digits, how many there were and what they stand for. -/
def readByte (j c : Nat) : List UInt8 → Nat × Nat × List UInt8
  | [] => (j, c, [])
  | b :: buf =>
      if j < 2 then
        if cIsxdigit b then readByte (j + 1) ((c <<< 4) ||| (getXdigit b).toNat) buf else readByte j c buf
      else (j, c, b :: buf)

theorem readByte_shorter (j c : Nat) (buf : List UInt8) : (readByte j c buf).2.2.length ≤ buf.length := by
  induction buf generalizing j c with
  | nil => exact Nat.le_refl _
  | cons b buf ih =>
      unfold readByte
      rw [List.length_cons]
      split
      · split
        · exact (ih (j + 1) _).trans (Nat.le_succ _)
        · exact (ih j c).trans (Nat.le_succ _)
      · exact Nat.le_refl _

def readHex : List UInt8 → Except SetvalStop (List UInt8)
  | [] => return []
  | b :: buf => do
      let next := readByte 0 0 (b :: buf)
      if next.1 = 2 then return UInt8.ofNat next.2.1 :: (← readHex next.2.2)
      else if next.1 = 1 then throw .trailingGarbage
      else readHex next.2.2
termination_by buf => buf.length
decreasing_by
  all_goals
    rw [readByte, if_pos (by decide), List.length_cons]
    split <;> exact Nat.lt_succ_of_le (readByte_shorter _ _ _)

def wideChar (c : UInt8) : Except SetvalStop (List UInt8) := do
  if c &&& 0x80 ≠ 0 then throw .not7Bit
  return [c, 0]

def readString (buf : List UInt8) : Except SetvalStop (List UInt8) := do
  let nrChars := buf.length
  if 2 * (nrChars + 1) ≥ 2 ^ 31 then throw .overflow
  return ((← (buf ++ [0]).mapM wideChar)).flatten

abbrev noneWord : List UInt8 := [0x6e, 0x6f, 0x6e, 0x65]
abbrev stringColon : List UInt8 := [0x73, 0x74, 0x72, 0x69, 0x6e, 0x67, 0x3a]
abbrev expandstringColon : List UInt8 :=
  [0x65, 0x78, 0x70, 0x61, 0x6e, 0x64, 0x73, 0x74, 0x72, 0x69, 0x6e, 0x67, 0x3a]
abbrev dwordColon : List UInt8 := [0x64, 0x77, 0x6f, 0x72, 0x64, 0x3a]
abbrev qwordColon : List UInt8 := [0x71, 0x77, 0x6f, 0x72, 0x64, 0x3a]
abbrev hexColon : List UInt8 := [0x68, 0x65, 0x78, 0x3a]

/-- The type and the data of a value line. `fresh` is what `malloc` finds in the block for the data;
all but the block of a qword is written over as far as it is used. -/
def parseValueLine (fresh : Mem) (buf : List UInt8) : Except SetvalStop (Nat × List UInt8) := do
  if buf = noneWord then return (0, [])
  else if stringColon <+: buf then return (1, ← readString (buf.drop 7))
  else if expandstringColon <+: buf then return (2, ← readString (buf.drop 13))
  else if dwordColon <+: buf then
    let u32 ← getUnsigned "dword" uint32Max (buf.drop 6)
    return (4, slice (blit fresh 0 (leBytes 4 u32)) 0 4)
  else if qwordColon <+: buf then
    -- The message has the name of the other type.
    let n ← getInteger "dword" (buf.drop 6)
    let u64 := leBytes 8 (n % 2 ^ 64).toNat
    return (11, slice (blit fresh 0 (u64.take 4)) 0 8)
  else if hexColon <+: buf then
    let buf := buf.drop 4
    let t ← getUnsigned "hex" uint32Max (buf.takeWhile (· ≠ 0x3a))
    return (t, ← readHex (buf.dropWhile (· ≠ 0x3a)).tail)
  else throw .cannotParse

/-- The key that a key line stands for. -/
def keyOf (line : CString) : CString := if line.bytes = [0x40] then cstr [] else line

/-- `count` pairs of lines, from the value with index `i` on. -/
def readValues (fresh : Nat → Mem) : Nat → Nat → List CString → Except SetvalStop (List SetValue)
  | 0, _, _ => return []
  | count + 1, i, key :: value :: lines => do
      let (t, data) ← parseValueLine (fresh i) value.bytes
      return ⟨keyOf key, t, data⟩ :: (← readValues fresh count (i + 1) lines)
  | _ + 1, _, _ => throw .endOfInput

/-- The array that `cmd_setval` passes to `hivex_node_set_values`. `lines` is what `rl_gets` has to
give, and `fresh i` what `malloc` finds in the block for the data of the value `i`. -/
def cmdSetval (fresh : Nat → Mem) (nrvalsStr : CString) (lines : List CString) : Except SetvalStop (List SetValue) := do
  let nrvals ← getUnsigned "nrvals" hivexMaxValues nrvalsStr.bytes
  readValues fresh nrvals 0 lines

/-- The bytes that pairs of hex digits stand for. -/
inductive Paired : List UInt8 → List UInt8 → Prop
  | nil : Paired [] []
  | cons {high low : UInt8} {digits bytes : List UInt8} (rest : Paired digits bytes) :
      Paired (high :: low :: digits) (UInt8.ofNat (16 * digitValue high + digitValue low) :: bytes)

def utf16le (units : List Nat) : List UInt8 := units.flatMap (leBytes 2)

/-- The type and the data that a value line stands for. -/
inductive ValueLine : List UInt8 → Nat → List UInt8 → Prop
  | none : ValueLine noneWord 0 []
  | string {text : List UInt8} (ascii : ∀ c ∈ text, c < 0x80) (small : 2 * (text.length + 1) < 2 ^ 31) :
      ValueLine (stringColon ++ text) 1 (utf16le (text.map UInt8.toNat ++ [0]))
  | expandString {text : List UInt8} (ascii : ∀ c ∈ text, c < 0x80) (small : 2 * (text.length + 1) < 2 ^ 31) :
      ValueLine (expandstringColon ++ text) 2 (utf16le (text.map UInt8.toNat ++ [0]))
  | dword {text : List UInt8} {n : Nat} (numeral : Numeral text n) (small : n < 2 ^ 32) :
      ValueLine (dwordColon ++ text) 4 (leBytes 4 n)
  | qword {text : List UInt8} {n : Int} (numeral : Numeral text n) (low : -2 ^ 63 ≤ n) (high : n < 2 ^ 63) :
      ValueLine (qwordColon ++ text) 11 (leBytes 8 (n % 2 ^ 64).toNat)
  | hex {number text data : List UInt8} {t : Nat} (plain : 0x3a ∉ number) (numeral : Numeral number t)
      (small : t < 2 ^ 32) (paired : Paired (text.filter cIsxdigit) data) :
      ValueLine (hexColon ++ (number ++ 0x3a :: text)) t data
  | hexBare {number : List UInt8} {t : Nat} (plain : 0x3a ∉ number) (numeral : Numeral number t) (small : t < 2 ^ 32) :
      ValueLine (hexColon ++ number) t []

/-- The value holds what was typed in the two lines. -/
structure Holds (typed : CString × CString) (val : SetValue) : Prop where
  key : val.key = keyOf typed.1
  value : ValueLine typed.2.bytes val.t val.value

def unpaired (typed : List (CString × CString)) : List CString := typed.flatMap fun pair => [pair.1, pair.2]

/-- The count and the lines start with these pairs of lines. -/
structure Entered (nrvalsStr : CString) (lines : List CString) (typed : List (CString × CString)) : Prop where
  count : Numeral nrvalsStr.bytes typed.length
  few : typed.length ≤ 1000
  lines : unpaired typed <+: lines

/-- If `cmd_setval` gets to its call, the array holds what was typed, pair by pair. -/
def StoresTyped (fresh : Nat → Mem) (nrvalsStr : CString) (lines : List CString) : Prop :=
  ∀ values, cmdSetval fresh nrvalsStr lines = .ok values →
    ∃ typed, Entered nrvalsStr lines typed ∧ List.Forall₂ Holds typed values

/-- In an input that has the form described, the block for each qword ends by chance with the upper
half of the number. -/
def QwordsWhole (fresh : Nat → Mem) (nrvalsStr : CString) (lines : List CString) : Prop :=
  ∀ typed, Entered nrvalsStr lines typed → (∀ pair ∈ typed, ∃ t data, ValueLine pair.2.bytes t data) →
    ∀ i pair, typed[i]? = some pair → ∀ text n, pair.2.bytes = qwordColon ++ text → Numeral text n →
      slice (fresh i) 4 4 = (leBytes 8 (n % 2 ^ 64).toNat).drop 4

section Numbers
variable {s : List UInt8} {n : Int} {field : String} {bits max m : Nat}

theorem xstrtol_iff : xstrtol bits s = .ok n ↔ Numeral s n ∧ -2 ^ (bits - 1) ≤ n ∧ n < 2 ^ (bits - 1) := by
  rw [← strtol_iff, xstrtol]
  cases read : strtol s with
  | none => simp
  | some found =>
      obtain ⟨n', rest⟩ := found
      by_cases ends : rest = []
      · by_cases fits : -2 ^ (bits - 1) ≤ n' ∧ n' < 2 ^ (bits - 1)
        · simp only [ends, if_true, fits, and_self, Except.ok.injEq, Option.some.injEq, Prod.mk.injEq, and_true]
          constructor
          · rintro rfl
            exact ⟨rfl, fits⟩
          · exact fun same => same.1
        · simp only [ends, if_true, if_neg fits, Option.some.injEq, Prod.mk.injEq, and_true]
          constructor
          · intro wrong
            cases wrong
          · rintro ⟨rfl, inside⟩
            exact absurd inside fits
      · have refused : ∀ err : Nat, ¬err ||| 2 = 0 := fun err none => by simp at none
        simp only [ends, if_false, refused, Option.some.injEq, Prod.mk.injEq, and_false, false_and]
        constructor
        · intro wrong
          cases wrong
        · exact False.elim

theorem getInteger_iff : getInteger field s = .ok n ↔ Numeral s n ∧ -2 ^ 63 ≤ n ∧ n < 2 ^ 63 := by
  rw [← @xstrtol_iff s n 64, getInteger]
  cases xstrtol 64 s <;> simp [Except.mapError]

theorem getUnsigned_iff (few : max < 2 ^ 63) : getUnsigned field max s = .ok m ↔ Numeral s m ∧ m ≤ max := by
  unfold getUnsigned
  constructor
  · intro read
    obtain ⟨n, number, read⟩ := bind_ok_iff.mp read
    have inside := getInteger_iff.mp number
    split at read
    · cases read
    · rename_i fits
      obtain rfl := Except.ok.inj read
      rw [Int.toNat_of_nonneg (by omega)]
      exact ⟨inside.1, by omega⟩
  · rintro ⟨numeral, small⟩
    have number : getInteger field s = .ok m := getInteger_iff.mpr ⟨numeral, by omega, by omega⟩
    rw [number]
    have fits : ¬((m : Int) < 0 ∨ (m : Int) > max) := by omega
    show (if (m : Int) < 0 ∨ (m : Int) > max then _ else _) = _
    rw [if_neg fits]
    rfl

end Numbers

section Digits
variable {buf rest digits data : List UInt8} {b : UInt8} {j c : Nat}

theorem getXdigit_digitValue : ∀ b : UInt8, cIsxdigit b = true → (getXdigit b).toNat = digitValue b ∧ digitValue b < 16 := by
  decide +kernel

/-- Shifting in a digit. -/
theorem shift_digit (digit : cIsxdigit b = true) : (c <<< 4) ||| (getXdigit b).toNat = 16 * c + digitValue b := by
  obtain ⟨same, small⟩ := getXdigit_digitValue b digit
  rw [same, Nat.shiftLeft_eq, Nat.mul_comm c]
  exact (Nat.two_pow_add_eq_or_of_lt small c).symm

theorem readByte_full : readByte 2 c buf = (2, c, buf) := by
  cases buf <;> rfl

theorem readByte_next (less : j < 2) : buf.filter cIsxdigit = [] ∧ readByte j c buf = (j, c, []) ∨
    ∃ b rest, buf.filter cIsxdigit = b :: rest.filter cIsxdigit ∧
      readByte j c buf = readByte (j + 1) (16 * c + digitValue b) rest := by
  induction buf with
  | nil => exact Or.inl ⟨rfl, rfl⟩
  | cons b buf ih =>
      rw [readByte, if_pos less]
      by_cases digit : cIsxdigit b = true
      · right
        refine ⟨b, buf, List.filter_cons_of_pos digit, ?_⟩
        rw [if_pos digit, shift_digit digit]
      · rw [if_neg digit, List.filter_cons_of_neg digit]
        exact ih

/-- The hex loop ends well exactly if the digits pair up, and then with their bytes. -/
theorem readHex_iff : readHex buf = .ok data ↔ Paired (buf.filter cIsxdigit) data := by
  induction hn : buf.length using Nat.strong_induction_on generalizing buf data with
  | _ n ih =>
      subst hn
      cases buf with
      | nil =>
          rw [readHex]
          constructor
          · intro done
            obtain rfl := Except.ok.inj done
            exact .nil
          · rintro ⟨⟩
            rfl
      | cons b buf =>
          have shorter : (readByte 0 0 (b :: buf)).2.2.length < (b :: buf).length := by
            rw [readByte, if_pos (by decide), List.length_cons]
            split <;> exact Nat.lt_succ_of_le (readByte_shorter _ _ _)
          rw [readHex]
          rcases @readByte_next (b :: buf) 0 0 (by decide) with ⟨none, read⟩ | ⟨high, rest, split, read⟩
          · rw [read] at shorter ⊢
            rw [none, if_neg (by decide), if_neg (by decide), ih _ shorter rfl]
            rfl
          · rw [split]
            rcases @readByte_next rest 1 (16 * 0 + digitValue high) (by decide) with ⟨none, read'⟩ | ⟨low, rest', split', read'⟩
            · rw [read, read', none, if_neg (by simp), if_pos rfl]
              constructor
              · intro wrong
                cases wrong
              · rintro ⟨⟩
            · rw [readByte_full] at read'
              rw [read, read'] at shorter ⊢
              rw [split', if_pos rfl]
              constructor
              · intro done
                obtain ⟨data', later, done⟩ := bind_ok_iff.mp done
                obtain rfl := Except.ok.inj done
                rw [Nat.mul_zero, Nat.zero_add]
                exact .cons ((ih _ shorter rfl).mp later)
              · rintro ⟨⟩
                rename_i data' later
                rw [(ih _ shorter rfl).mpr later, Nat.mul_zero, Nat.zero_add]
                rfl

end Digits

section Strings
variable {text data : List UInt8} {c : UInt8}

theorem highBit : ∀ c : UInt8, c &&& 0x80 ≠ 0 ↔ ¬c < 0x80 := by
  decide +kernel

theorem mapM_wideChar {chars : List UInt8} {wide : List (List UInt8)} : chars.mapM wideChar = .ok wide ↔
    (∀ c ∈ chars, c < 0x80) ∧ wide = chars.map fun c => [c, 0] := by
  induction chars generalizing wide with
  | nil =>
      constructor
      · intro done
        obtain rfl := Except.ok.inj done
        exact ⟨by simp, rfl⟩
      · rintro ⟨-, rfl⟩
        rfl
  | cons c chars ih =>
      rw [List.mapM_cons]
      by_cases high : c &&& 0x80 ≠ 0
      · have wrong := (highBit c).mp high
        rw [wideChar, if_pos high]
        constructor
        · intro done
          cases done
        · rintro ⟨all, -⟩
          exact absurd (all c (by simp)) wrong
      · have low : c < 0x80 := by
          by_contra wrong
          exact high ((highBit c).mpr wrong)
        rw [wideChar, if_neg high, List.forall_mem_cons, List.map_cons]
        constructor
        · intro done
          obtain ⟨_, first, done⟩ := bind_ok_iff.mp done
          obtain ⟨rest, later, done⟩ := bind_ok_iff.mp done
          obtain rfl := Except.ok.inj first
          obtain rfl := Except.ok.inj done
          obtain ⟨all, rfl⟩ := ih.mp later
          exact ⟨⟨low, all⟩, rfl⟩
        · rintro ⟨⟨-, all⟩, rfl⟩
          rw [ih.mpr ⟨all, rfl⟩]
          rfl

theorem utf16le_ascii (chars : List UInt8) : (chars.map fun c => [c, (0 : UInt8)]).flatten = utf16le (chars.map UInt8.toNat) := by
  induction chars with
  | nil => rfl
  | cons c chars ih =>
      have unit : leBytes 2 c.toNat = [c, 0] := by
        have small := c.toNat_lt
        simp [leBytes, Nat.div_eq_of_lt small]
      simp only [utf16le, List.map_cons, List.flatten_cons, List.flatMap_cons, unit] at ih ⊢
      rw [ih]

theorem readString_iff : readString text = .ok data ↔ ((∀ c ∈ text, c < 0x80) ∧ 2 * (text.length + 1) < 2 ^ 31) ∧
    data = utf16le (text.map UInt8.toNat ++ [0]) := by
  have shape : utf16le (text.map UInt8.toNat ++ [0]) = ((text ++ [0]).map fun c => [c, (0 : UInt8)]).flatten := by
    rw [utf16le_ascii, List.map_append]
    rfl
  rw [shape]
  unfold readString
  by_cases large : 2 * (text.length + 1) ≥ 2 ^ 31
  · simp only [large, if_true]
    constructor
    · intro wrong
      cases wrong
    · rintro ⟨⟨-, small⟩, -⟩
      omega
  · simp only [large, if_false]
    constructor
    · intro done
      obtain ⟨wide, chars, done⟩ := bind_ok_iff.mp done
      obtain rfl := Except.ok.inj done
      obtain ⟨all, rfl⟩ := mapM_wideChar.mp chars
      exact ⟨⟨fun c member => all c (by simp [member]), by omega⟩, rfl⟩
    · rintro ⟨⟨all, -⟩, rfl⟩
      have chars : (text ++ [0]).mapM wideChar = .ok ((text ++ [0]).map fun c => [c, 0]) := by
        apply mapM_wideChar.mpr
        refine ⟨?_, rfl⟩
        intro c member
        rcases List.mem_append.mp member with early | last
        · exact all c early
        · rw [List.mem_singleton.mp last]
          decide
      rw [chars]
      rfl

end Strings

section Lines
variable {fresh : Mem} {buf text data whole : List UInt8} {t n : Nat}

theorem slice_blit_zero (bytes : List UInt8) : slice (blit fresh 0 bytes) 0 bytes.length = bytes := slice_blit _ _ _

theorem slice_append (m : Mem) (i a b : Nat) : slice m i (a + b) = slice m i a ++ slice m (i + a) b := by
  simp [slice, List.range_add, Nat.add_assoc]

/-- What stands in the block of a qword of which only the first half is copied. -/
theorem slice_half (u64 : List UInt8) (eight : u64.length = 8) :
    slice (blit fresh 0 (u64.take 4)) 0 8 = u64.take 4 ++ slice fresh 4 4 := by
  have half : (u64.take 4).length = 4 := by simp [eight]
  have front := @slice_blit_zero fresh (u64.take 4)
  rw [half] at front
  rw [slice_append _ 0 4 4, front]
  congr 1
  apply slice_congr
  intro k _
  exact blit_outside _ _ _ _ (by omega)

/-- The data that the array gets for a line that stands for `whole`. -/
def kept (fresh : Mem) (buf whole : List UInt8) : List UInt8 :=
  if qwordColon <+: buf then whole.take 4 ++ slice fresh 4 4 else whole

theorem prefix_split {front : List UInt8} (starts : front <+: buf) : buf = front ++ buf.drop front.length :=
  (List.prefix_iff_eq_append.mp starts).symm

theorem colon_split {number : List UInt8} (plain : 0x3a ∉ number) :
    (number ++ 0x3a :: text).takeWhile (· ≠ 0x3a) = number ∧ ((number ++ 0x3a :: text).dropWhile (· ≠ 0x3a)).tail = text := by
  have all : ∀ c ∈ number, decide (c ≠ 0x3a) = true := by
    intro c member
    exact decide_eq_true fun same => plain (same ▸ member)
  constructor
  · rw [List.takeWhile_append_of_pos all]
    simp
  · rw [List.dropWhile_append_of_pos all]
    simp

theorem colon_none {number : List UInt8} (plain : 0x3a ∉ number) :
    number.takeWhile (· ≠ 0x3a) = number ∧ (number.dropWhile (· ≠ 0x3a)).tail = [] := by
  have all : ∀ c ∈ number, decide (c ≠ 0x3a) = true := by
    intro c member
    exact decide_eq_true fun same => plain (same ▸ member)
  rw [List.takeWhile_eq_self_iff.mpr all, List.dropWhile_eq_nil_iff.mpr all]
  exact ⟨rfl, rfl⟩

theorem uint32_iff {field : String} : getUnsigned field uint32Max text = .ok n ↔ Numeral text n ∧ n < 2 ^ 32 := by
  rw [getUnsigned_iff (by decide)]
  apply and_congr_right
  intro _
  unfold uint32Max
  omega

theorem parseValueLine_string : parseValueLine fresh (stringColon ++ text) =
    (readString text).bind fun data => .ok (1, data) := rfl

theorem parseValueLine_expandString : parseValueLine fresh (expandstringColon ++ text) =
    (readString text).bind fun data => .ok (2, data) := rfl

theorem parseValueLine_dword : parseValueLine fresh (dwordColon ++ text) =
    (getUnsigned "dword" uint32Max text).bind fun n => .ok (4, slice (blit fresh 0 (leBytes 4 n)) 0 4) := rfl

theorem parseValueLine_qword : parseValueLine fresh (qwordColon ++ text) = (getInteger "dword" text).bind fun n =>
    .ok (11, slice (blit fresh 0 ((leBytes 8 (n % 2 ^ 64).toNat).take 4)) 0 8) := rfl

theorem parseValueLine_hex : parseValueLine fresh (hexColon ++ text) =
    (getUnsigned "hex" uint32Max (text.takeWhile (· ≠ 0x3a))).bind fun t =>
      (readHex (text.dropWhile (· ≠ 0x3a)).tail).bind fun data => .ok (t, data) := rfl

/-- `cmd_setval` takes a value line exactly if it stands for a value, and keeps its type and all its
data but the upper half of a qword. -/
theorem parseValueLine_iff : parseValueLine fresh buf = .ok (t, data) ↔
    ∃ whole, ValueLine buf t whole ∧ data = kept fresh buf whole := by
  constructor
  · intro parsed
    unfold parseValueLine at parsed
    split at parsed
    · rename_i shape
      obtain ⟨rfl, rfl⟩ := Prod.mk.inj (Except.ok.inj parsed)
      subst shape
      exact ⟨[], .none, rfl⟩
    split at parsed
    · rename_i starts
      obtain ⟨units, string, parsed⟩ := bind_ok_iff.mp parsed
      obtain ⟨rfl, rfl⟩ := Prod.mk.inj (Except.ok.inj parsed)
      obtain ⟨⟨ascii, small⟩, rfl⟩ := readString_iff.mp string
      rw [prefix_split starts]
      exact ⟨_, .string ascii small, rfl⟩
    split at parsed
    · rename_i starts
      obtain ⟨units, string, parsed⟩ := bind_ok_iff.mp parsed
      obtain ⟨rfl, rfl⟩ := Prod.mk.inj (Except.ok.inj parsed)
      obtain ⟨⟨ascii, small⟩, rfl⟩ := readString_iff.mp string
      rw [prefix_split starts]
      exact ⟨_, .expandString ascii small, rfl⟩
    split at parsed
    · rename_i starts
      obtain ⟨n, number, parsed⟩ := bind_ok_iff.mp parsed
      obtain ⟨rfl, rfl⟩ := Prod.mk.inj (Except.ok.inj parsed)
      obtain ⟨numeral, small⟩ := uint32_iff.mp number
      rw [prefix_split starts]
      refine ⟨_, .dword numeral small, ?_⟩
      have four := @slice_blit_zero fresh (leBytes 4 n)
      rwa [leBytes_length] at four
    split at parsed
    · rename_i starts
      obtain ⟨n, number, parsed⟩ := bind_ok_iff.mp parsed
      obtain ⟨rfl, rfl⟩ := Prod.mk.inj (Except.ok.inj parsed)
      obtain ⟨numeral, low, high⟩ := getInteger_iff.mp number
      have line : ValueLine buf 11 (leBytes 8 (n % 2 ^ 64).toNat) := by
        rw [prefix_split starts]
        exact .qword numeral low high
      refine ⟨_, line, ?_⟩
      rw [kept, if_pos starts]
      exact slice_half _ (leBytes_length _ _)
    split at parsed
    · rename_i starts
      obtain ⟨t, number, parsed⟩ := bind_ok_iff.mp parsed
      obtain ⟨bytes, hex, parsed⟩ := bind_ok_iff.mp parsed
      obtain ⟨rfl, rfl⟩ := Prod.mk.inj (Except.ok.inj parsed)
      obtain ⟨numeral, small⟩ := uint32_iff.mp number
      have paired := readHex_iff.mp hex
      have plain : 0x3a ∉ (buf.drop 4).takeWhile (· ≠ 0x3a) := fun member => by
        simpa using List.mem_takeWhile_imp member
      have parts := List.takeWhile_append_dropWhile (p := (· ≠ 0x3a)) (l := buf.drop 4)
      have shape : buf = hexColon ++ buf.drop 4 := prefix_split starts
      cases rest : (buf.drop 4).dropWhile (· ≠ 0x3a) with
      | nil =>
          rw [rest] at paired parts
          have line := ValueLine.hexBare plain numeral small
          rw [List.append_nil] at parts
          rw [parts, ← shape] at line
          cases paired
          refine ⟨[], line, ?_⟩
          rw [shape]
          rfl
      | cons c text =>
          have isColon : c = 0x3a := by
            have stops := List.head?_dropWhile_not (· ≠ 0x3a) (buf.drop 4)
            rw [rest] at stops
            simpa using stops
          rw [rest, isColon] at parts
          rw [rest, List.tail_cons] at paired
          have line := ValueLine.hex plain numeral small paired
          rw [parts, ← shape] at line
          refine ⟨bytes, line, ?_⟩
          rw [shape]
          rfl
    · cases parsed
  · rintro ⟨whole, line, rfl⟩
    cases line with
    | none => rfl
    | string ascii small =>
        rw [parseValueLine_string, readString_iff.mpr ⟨⟨ascii, small⟩, rfl⟩]
        rfl
    | expandString ascii small =>
        rw [parseValueLine_expandString, readString_iff.mpr ⟨⟨ascii, small⟩, rfl⟩]
        rfl
    | @dword text n numeral small =>
        have four := @slice_blit_zero fresh (leBytes 4 n)
        rw [leBytes_length] at four
        rw [parseValueLine_dword, uint32_iff.mpr ⟨numeral, small⟩, ok_bind, four]
        rfl
    | @qword text n numeral low high =>
        rw [parseValueLine_qword, getInteger_iff.mpr ⟨numeral, low, high⟩, ok_bind, slice_half _ (leBytes_length _ _)]
        rfl
    | hex plain numeral small paired =>
        rw [parseValueLine_hex, (colon_split plain).1, (colon_split plain).2, uint32_iff.mpr ⟨numeral, small⟩, ok_bind,
          readHex_iff.mpr paired]
        rfl
    | hexBare plain numeral small =>
        have nothing : readHex [] = .ok [] := readHex_iff.mpr .nil
        rw [parseValueLine_hex, (colon_none plain).1, (colon_none plain).2, uint32_iff.mpr ⟨numeral, small⟩, ok_bind,
          nothing]
        rfl

/-- The number of a qword line is the one that its data are the bytes of. -/
theorem ValueLine.qword_data (line : ValueLine (qwordColon ++ text) t data) :
    ∃ n, Numeral text n ∧ data = leBytes 8 (n % 2 ^ 64).toNat := by
  have qword : qwordColon <+: qwordColon ++ text := List.prefix_append _ _
  generalize shape : qwordColon ++ text = buf at line
  cases line with
  | @qword text' n numeral =>
      obtain rfl := List.append_cancel_left shape
      exact ⟨n, numeral, rfl⟩
  | none => cases shape
  | string => cases shape
  | expandString => cases shape
  | dword => cases shape
  | hex => cases shape
  | hexBare => cases shape

end Lines

section Arrays
variable {fresh : Nat → Mem} {nrvalsStr : CString} {lines : List CString} {typed typed' : List (CString × CString)}
  {values : List SetValue} {count i : Nat}

/-- The value that `cmd_setval` makes of two lines. -/
structure Reads (fresh : Mem) (typed : CString × CString) (val : SetValue) : Prop where
  key : val.key = keyOf typed.1
  value : parseValueLine fresh typed.2.bytes = .ok (val.t, val.value)

theorem readValues_iff : readValues fresh count i lines = .ok values ↔ ∃ typed, typed.length = count ∧
    unpaired typed <+: lines ∧ List.Forall₂ (fun entry val => Reads (fresh entry.2) entry.1 val) (typed.zipIdx i) values := by
  induction count generalizing i lines values with
  | zero =>
      constructor
      · intro done
        obtain rfl := Except.ok.inj done
        exact ⟨[], rfl, List.nil_prefix, .nil⟩
      · rintro ⟨typed, none, -, reads⟩
        obtain rfl := List.length_eq_zero_iff.mp none
        cases reads
        rfl
  | succ count ih =>
      constructor
      · intro done
        match lines, done with
        | key :: value :: lines, done =>
            obtain ⟨⟨t, data⟩, parsed, done⟩ := bind_ok_iff.mp done
            obtain ⟨rest, later, done⟩ := bind_ok_iff.mp done
            obtain rfl := Except.ok.inj done
            obtain ⟨typed, length, front, reads⟩ := ih.mp later
            refine ⟨(key, value) :: typed, congrArg Nat.succ length, ?_, ?_⟩
            · exact List.cons_prefix_cons.mpr ⟨rfl, List.cons_prefix_cons.mpr ⟨rfl, front⟩⟩
            · exact .cons ⟨rfl, parsed⟩ reads
        | [key], done => cases done
        | [], done => cases done
      · rintro ⟨typed, length, front, reads⟩
        cases typed with
        | nil => cases length
        | cons pair typed =>
            obtain ⟨rest, rfl⟩ := front
            cases reads with
            | @cons _ val _ values first later =>
                have more := ih.mpr ⟨typed, Nat.succ.inj length, List.prefix_append _ rest, later⟩
                show (parseValueLine (fresh i) pair.2.bytes).bind _ = _
                rw [first.value, ok_bind]
                show (readValues fresh count (i + 1) (unpaired typed ++ rest)).bind _ = _
                rw [more, ok_bind, ← first.key]
                rfl

theorem cmdSetval_iff : cmdSetval fresh nrvalsStr lines = .ok values ↔ ∃ typed, Entered nrvalsStr lines typed ∧
    List.Forall₂ (fun entry val => Reads (fresh entry.2) entry.1 val) typed.zipIdx values := by
  unfold cmdSetval
  constructor
  · intro done
    obtain ⟨n, number, done⟩ := bind_ok_iff.mp done
    obtain ⟨numeral, few⟩ := (getUnsigned_iff (by decide)).mp number
    obtain ⟨typed, rfl, front, reads⟩ := readValues_iff.mp done
    exact ⟨typed, ⟨numeral, few, front⟩, reads⟩
  · rintro ⟨typed, entered, reads⟩
    have number : getUnsigned "nrvals" hivexMaxValues nrvalsStr.bytes = .ok typed.length :=
      (getUnsigned_iff (by decide)).mpr ⟨entered.count, entered.few⟩
    rw [number]
    exact readValues_iff.mpr ⟨typed, rfl, entered.lines, reads⟩

theorem unpaired_length (typed : List (CString × CString)) : (unpaired typed).length = 2 * typed.length := by
  induction typed with
  | nil => rfl
  | cons pair typed ih =>
      have more : (unpaired (pair :: typed)).length = (unpaired typed).length + 2 := rfl
      rw [more, ih, List.length_cons]
      omega

theorem unpaired_injective : Function.Injective unpaired := by
  intro typed typed' same
  induction typed generalizing typed' with
  | nil =>
      cases typed' with
      | nil => rfl
      | cons => cases same
  | cons pair typed ih =>
      cases typed' with
      | nil => cases same
      | cons pair' typed' =>
          obtain ⟨key, rest⟩ := List.cons.inj same
          obtain ⟨value, rest⟩ := List.cons.inj rest
          rw [ih rest, Prod.ext key value]

/-- The count and the lines determine the pairs. -/
theorem Entered.unique (first : Entered nrvalsStr lines typed) (second : Entered nrvalsStr lines typed') :
    typed = typed' := by
  have length : typed.length = typed'.length := Int.ofNat.inj (Numeral.unique first.count second.count)
  apply unpaired_injective
  apply (List.prefix_of_prefix_length_le first.lines second.lines ?_).eq_of_length
  · rw [unpaired_length, unpaired_length, length]
  · rw [unpaired_length, unpaired_length, length]

/-- An input of the form described reaches the call, each value with what is kept of its data. -/
theorem cmdSetval_accepts (entered : Entered nrvalsStr lines typed)
    (lined : ∀ pair ∈ typed, ∃ t data, ValueLine pair.2.bytes t data) :
    ∃ values, cmdSetval fresh nrvalsStr lines = .ok values := by
  have each : ∀ typed : List (CString × CString), (∀ pair ∈ typed, ∃ t data, ValueLine pair.2.bytes t data) → ∀ i,
      ∃ values, List.Forall₂ (fun entry val => Reads (fresh entry.2) entry.1 val) (typed.zipIdx i) values := by
    intro typed
    induction typed with
    | nil => exact fun _ i => ⟨[], .nil⟩
    | cons pair typed ih =>
        intro lined i
        obtain ⟨values, later⟩ := ih (fun pair member => lined pair (by simp [member])) (i + 1)
        obtain ⟨t, whole, line⟩ := lined pair (by simp)
        have parsed : parseValueLine (fresh i) pair.2.bytes = .ok (t, kept (fresh i) pair.2.bytes whole) :=
          parseValueLine_iff.mpr ⟨whole, line, rfl⟩
        exact ⟨⟨keyOf pair.1, t, kept (fresh i) pair.2.bytes whole⟩ :: values, .cons ⟨rfl, parsed⟩ later⟩
  obtain ⟨values, reads⟩ := each typed lined 0
  exact ⟨values, cmdSetval_iff.mpr ⟨typed, entered, reads⟩⟩

/-- Of the lines of a qword the array gets the lower half and what was in memory. -/
theorem Reads.qword {fresh : Mem} {pair : CString × CString} {val : SetValue} {text : List UInt8} {n : Int}
    (reads : Reads fresh pair val) (qword : pair.2.bytes = qwordColon ++ text) (numeral : Numeral text n) :
    val.value = (leBytes 8 (n % 2 ^ 64).toNat).take 4 ++ slice fresh 4 4 := by
  obtain ⟨whole, line, data⟩ := parseValueLine_iff.mp reads.value
  rw [qword] at line data
  obtain ⟨n', numeral', rfl⟩ := line.qword_data
  rw [Numeral.unique numeral numeral', data, kept, if_pos (List.prefix_append _ _)]

/-- The array holds what was typed exactly if memory holds the upper half of every qword. -/
theorem storesTyped_iff : StoresTyped fresh nrvalsStr lines ↔ QwordsWhole fresh nrvalsStr lines := by
  constructor
  · intro stores typed entered lined i pair place text n qword numeral
    obtain ⟨values, done⟩ := @cmdSetval_accepts fresh _ _ _ entered lined
    obtain ⟨typed', entered', holds⟩ := stores values done
    obtain ⟨typed'', entered'', reads⟩ := cmdSetval_iff.mp done
    obtain rfl := entered.unique entered'
    obtain rfl := entered.unique entered''
    obtain ⟨inside, here⟩ := List.getElem?_eq_some_iff.mp place
    obtain ⟨length, holds⟩ := List.forall₂_iff_get.mp holds
    obtain ⟨_, reads⟩ := List.forall₂_iff_get.mp reads
    have held := holds i inside (length ▸ inside)
    have read := reads i (by simpa using inside) (length ▸ inside)
    simp only [List.get_eq_getElem, List.getElem_zipIdx, Nat.zero_add, here] at held read
    have line := held.value
    rw [qword] at line
    obtain ⟨n', numeral', data⟩ := line.qword_data
    rw [read.qword qword numeral, ← Numeral.unique numeral numeral'] at data
    rw [← data]
    exact (List.drop_left' (by simp)).symm
  · intro whole values done
    obtain ⟨typed, entered, reads⟩ := cmdSetval_iff.mp done
    refine ⟨typed, entered, ?_⟩
    obtain ⟨length, reads⟩ := List.forall₂_iff_get.mp reads
    rw [List.length_zipIdx] at length
    have each : ∀ i (inside : i < typed.length) (within : i < values.length), Reads (fresh i) typed[i] values[i] := by
      intro i inside within
      have read := reads i (by simpa using inside) within
      simpa using read
    have lined : ∀ pair ∈ typed, ∃ t data, ValueLine pair.2.bytes t data := by
      intro pair member
      obtain ⟨i, inside, rfl⟩ := List.getElem_of_mem member
      obtain ⟨data, line, -⟩ := parseValueLine_iff.mp (each i inside (length ▸ inside)).value
      exact ⟨_, data, line⟩
    apply List.forall₂_iff_get.mpr
    refine ⟨length, ?_⟩
    intro i inside within
    have read := each i inside within
    refine ⟨read.key, ?_⟩
    obtain ⟨data, line, stored⟩ := parseValueLine_iff.mp read.value
    simp only [List.get_eq_getElem]
    by_cases qword : qwordColon <+: typed[i].2.bytes
    · have shape := prefix_split qword
      have half := line
      rw [shape] at half
      obtain ⟨n, numeral, rfl⟩ := half.qword_data
      have upper := whole typed entered lined i typed[i] (List.getElem?_eq_getElem inside) _ n shape numeral
      rw [stored, kept, if_pos qword, upper, List.take_append_drop]
      exact line
    · rw [stored, kept, if_neg qword]
      exact line

/-- Whatever memory holds, the array is right exactly if no qword is typed. -/
theorem storesTyped_always_iff : (∀ fresh, StoresTyped fresh nrvalsStr lines) ↔
    ∀ typed, Entered nrvalsStr lines typed → (∀ pair ∈ typed, ∃ t data, ValueLine pair.2.bytes t data) →
      ∀ pair ∈ typed, ¬qwordColon <+: pair.2.bytes := by
  constructor
  · intro always typed entered lined pair member starts
    obtain ⟨i, place⟩ := List.mem_iff_getElem?.mp member
    have shape := prefix_split starts
    obtain ⟨t, data, line⟩ := lined pair member
    rw [shape] at line
    obtain ⟨n, numeral, -⟩ := line.qword_data
    have half : ∀ fresh : Nat → Mem, slice (fresh i) 4 4 = (leBytes 8 (n % 2 ^ 64).toNat).drop 4 := fun fresh =>
      (storesTyped_iff.mp (always fresh)) typed entered lined i pair place _ n shape numeral
    have differ := (half fun _ _ => 0).trans (half fun _ _ => 1).symm
    exact absurd differ (by decide)
  · intro absent fresh
    apply storesTyped_iff.mpr
    intro typed entered lined i pair place text n qword _
    exact absurd (qword ▸ List.prefix_append _ _) (absent typed entered lined pair (List.mem_of_getElem? place))

end Arrays

abbrev atLine : CString := cstr [0x40]
abbrev oneLine : CString := cstr [0x31]

-- qword:0x0123456789abcdef
abbrev qwordLine : CString := cstr (qwordColon ++
  [0x30, 0x78, 0x30, 0x31, 0x32, 0x33, 0x34, 0x35, 0x36, 0x37, 0x38, 0x39, 0x61, 0x62, 0x63, 0x64, 0x65, 0x66])

/-- In zeroed memory the qword of the manual loses its upper half. -/
theorem qword_cut : cmdSetval (fun _ _ => 0) oneLine [atLine, qwordLine] =
      .ok [⟨cstr [], 11, [0xef, 0xcd, 0xab, 0x89, 0, 0, 0, 0]⟩] ∧
    ¬StoresTyped (fun _ _ => 0) oneLine [atLine, qwordLine] := by
  have run : cmdSetval (fun _ _ => 0) oneLine [atLine, qwordLine] =
      .ok [⟨cstr [], 11, [0xef, 0xcd, 0xab, 0x89, 0, 0, 0, 0]⟩] := by decide +kernel
  have entered : Entered oneLine [atLine, qwordLine] [(atLine, qwordLine)] :=
    ⟨strtol_iff.mp (by decide), by decide, List.prefix_rfl⟩
  have numeral : Numeral (qwordLine.bytes.drop 6) 0x0123456789abcdef := strtol_iff.mp (by decide)
  have line : ValueLine qwordLine.bytes 11 (leBytes 8 ((0x0123456789abcdef : Int) % 2 ^ 64).toNat) :=
    .qword numeral (by decide) (by decide)
  refine ⟨run, ?_⟩
  intro stores
  have lined : ∀ pair ∈ [(atLine, qwordLine)], ∃ t data, ValueLine pair.2.bytes t data := by
    intro pair member
    rw [List.mem_singleton.mp member]
    exact ⟨_, _, line⟩
  have whole := storesTyped_iff.mp stores _ entered lined 0 _ rfl _ _ rfl numeral
  exact absurd whole (by decide)

end Hivex.Setval
