import Hivex.RegeditLines

/-! The lines of a section as a grammar, apart from the expressions that the importer
matches them with: which lines stand for a value or for a deletion, and which other
lines the importer takes for one. -/
namespace Regedit
open LineText

section Grammar
variable (encode : Text → List UInt8)

/-- The characters between the quotes of a string, and what they stand for. -/
inductive Chars : Text → Text → Prop
  | nil : Chars [] []
  | plain {c : Char} {source out : Text} (notQuote : c ≠ quote) (notBackslash : c ≠ backslash)
      (rest : Chars source out) : Chars (c :: source) (c :: out)
  | escaped {c : Char} {source out : Text} (rest : Chars source out) :
      Chars (backslash :: c :: source) (c :: out)

inductive Quoted : Text → Text → Prop
  | between {source out : Text} (chars : Chars source out) : Quoted (quote :: source ++ [quote]) out

def digitValue (c : Char) : Nat :=
  if c.toNat ≤ 57 then c.toNat - 48 else if c.toNat ≤ 70 then c.toNat - 55 else c.toNat - 87

def number (digits : Text) : Nat := digits.foldl (fun value c => 16 * value + digitValue c) 0

def isSeparator (c : Char) : Bool := c = ',' || isSpace c

def digitsOf (text : Text) : Text := text.filter fun c => !isSeparator c

/-- An even number of digits and nothing else but separators. -/
def isHexText (text : Text) : Bool := (digitsOf text).all isXDigit && (digitsOf text).length % 2 == 0

inductive Pairs : Text → List UInt8 → Prop
  | nil : Pairs [] []
  | cons {high low : Char} {digits : Text} {bytes : List UInt8} (rest : Pairs digits bytes) :
      Pairs (high :: low :: digits) (UInt8.ofNat (16 * digitValue high + digitValue low) :: bytes)

/-- A list of bytes in digits, the separators anywhere. -/
inductive HexBytes : Text → List UInt8 → Prop
  | listed {text : Text} {bytes : List UInt8} (digits : isHexText text = true)
      (pairs : Pairs (digitsOf text) bytes) : HexBytes text bytes

inductive HexOpening : Text → Nat → Prop
  | binary : HexOpening "hex:".toList 3
  | typed {digits : Text} (some : digits ≠ []) (all : ∀ c ∈ digits, isXDigit c = true) :
      HexOpening ("hex(".toList ++ digits ++ "):".toList) (number digits)

inductive StringOpening : Text → Nat → Prop
  | bare : StringOpening [] 1
  | plain : StringOpening "str:".toList 1
  | typed {digits : Text} (some : digits ≠ []) (all : ∀ c ∈ digits, isXDigit c = true) :
      StringOpening ("str(".toList ++ digits ++ "):".toList) (number digits)

/-- What follows the equals sign of a value, its type and its data. -/
inductive Data : Text → Nat → List UInt8 → Prop
  | dword {digits : Text} (eight : digits.length = 8) (all : ∀ c ∈ digits, isXDigit c = true) :
      Data ("dword:".toList ++ digits) 4 (packV (number digits))
  | hex {opening text : Text} {t : Nat} {bytes : List UInt8} (opens : HexOpening opening t)
      (listed : HexBytes text bytes) : Data (opening ++ text) t bytes
  | string {opening source out : Text} {t : Nat} (opens : StringOpening opening t)
      (string : Quoted source out) : Data (opening ++ source) t (encode (out ++ ['\x00']))

inductive Key : Text → Text → Prop
  | default : Key ['@'] []
  | named {source name : Text} (string : Quoted source name) : Key source name

inductive Record where
  | set (value : Value)
  | delete (key : Text)
deriving DecidableEq

/-- The record that a line stands for. -/
inductive Denotes : Text → Record → Prop
  | set {k name d : Text} {t : Nat} {bytes : List UInt8} (key : Key k name)
      (data : Data encode d t bytes) : Denotes (k ++ '=' :: d) (.set ⟨name, t, bytes⟩)
  | delete {k name spaces : Text} (key : Key k name) (blank : isBlank spaces = true) :
      Denotes (k ++ '=' :: '-' :: spaces) (.delete name)

/-- Data that is no list of bytes, or has text behind the closing quote. -/
inductive LooseData : Text → Prop
  | hex {opening text : Text} {t : Nat} (opens : HexOpening opening t) (bad : isHexText text = false) :
      LooseData (opening ++ text)
  | string {opening source out behind : Text} {t : Nat} (opens : StringOpening opening t)
      (string : Quoted source out) (ends : behind.getLast? = some quote) :
      LooseData (opening ++ (source ++ behind))

/-- The lines outside the grammar that the importer takes for a value or a deletion. -/
inductive Loose : Text → Prop
  | set {k name d : Text} (key : Key k name) (data : LooseData d) : Loose (k ++ '=' :: d)
  | delete {source name behind spaces : Text} (string : Quoted source name) (more : behind ≠ [])
      (blank : isBlank spaces = true) : Loose (source ++ (behind ++ '=' :: '-' :: spaces))

end Grammar

section Strings

theorem quotedRest_complete {source out : Text} (chars : Chars source out) (rest : Text) :
    quotedRest (source ++ quote :: rest) = some (out, rest) := by
  induction chars with
  | nil => exact quotedRest_quote rest
  | plain notQuote notBackslash chars ih =>
      rw [List.cons_append, quotedRest_plain notQuote notBackslash, ih]
      rfl
  | escaped chars ih =>
      rw [List.cons_append, List.cons_append, quotedRest_escaped, ih]
      rfl

theorem parse_quoted {source out : Text} (string : Quoted source out) (rest : Text) :
    parseQuotedString (source ++ rest) = some (out, rest) := by
  cases string with
  | between chars =>
      rename_i body
      have split : quote :: body ++ [quote] ++ rest = quote :: (body ++ quote :: rest) := by simp
      rw [split, parseQuotedString, if_pos rfl]
      exact quotedRest_complete chars rest

/-- A string that is read ends with its closing quote, or with the backslash at which
the index runs past the end. -/
theorem quotedRest_sound {text out rest : Text} (read : quotedRest text = some (out, rest)) :
    (∃ source, Chars source out ∧ text = source ++ quote :: rest) ∨
      rest = [] ∧ text.getLast? = some backslash := by
  induction text using quotedRest.induct generalizing out with
  | case1 => cases read
  | case2 text =>
      rw [quotedRest_quote] at read
      obtain ⟨rfl, rfl⟩ := Prod.mk.inj (Option.some.inj read)
      exact Or.inl ⟨[], Chars.nil, rfl⟩
  | case3 differ =>
      have past : quotedRest [backslash] = some ([], []) := by decide
      rw [past] at read
      obtain ⟨rfl, rfl⟩ := Prod.mk.inj (Option.some.inj read)
      exact Or.inr ⟨rfl, rfl⟩
  | case4 escaped text differ ih =>
      rw [quotedRest_escaped, Option.map_eq_some_iff] at read
      obtain ⟨⟨out', last⟩, inner, same⟩ := read
      obtain ⟨rfl, rfl⟩ := Prod.mk.inj same
      rcases ih inner with ⟨source, chars, rfl⟩ | ⟨rfl, last⟩
      · exact Or.inl ⟨_, Chars.escaped chars, rfl⟩
      · exact Or.inr ⟨rfl, by rw [List.getLast?_cons, List.getLast?_cons, last]; rfl⟩
  | case5 c text notQuote notBackslash ih =>
      rw [quotedRest_plain notQuote notBackslash, Option.map_eq_some_iff] at read
      obtain ⟨⟨out', last⟩, inner, same⟩ := read
      obtain ⟨rfl, rfl⟩ := Prod.mk.inj same
      rcases ih inner with ⟨source, chars, rfl⟩ | ⟨rfl, last⟩
      · exact Or.inl ⟨_, Chars.plain notQuote notBackslash chars, rfl⟩
      · exact Or.inr ⟨rfl, by rw [List.getLast?_cons, last]; rfl⟩

theorem parseQuotedString_sound {text out rest : Text}
    (read : parseQuotedString text = some (out, rest)) :
    (∃ source, Quoted source out ∧ text = source ++ rest) ∨
      rest = [] ∧ text.getLast? = some backslash := by
  cases text with
  | nil => cases read
  | cons c text =>
      by_cases opens : c = quote
      · rw [parseQuotedString, if_pos opens] at read
        rcases quotedRest_sound read with ⟨source, chars, rfl⟩ | ⟨rfl, last⟩
        · refine Or.inl ⟨_, Quoted.between chars, ?_⟩
          simp [opens]
        · exact Or.inr ⟨rfl, by rw [List.getLast?_cons, last]; rfl⟩
      · rw [parseQuotedString, if_neg opens] at read
        cases read

end Strings

section Digits

theorem digitValue_digit {c : Char} (digit : isXDigit c = true) : digitValue c = nibble c := by
  have every : ∀ n < 103, isXDigit (Char.ofNat n) = true →
      digitValue (Char.ofNat n) = nibble (Char.ofNat n) := by decide +kernel
  have bounds := isXDigit_bounds digit
  have same : Char.ofNat c.toNat = c := Char.ofNat_toNat c
  rw [← same] at digit ⊢
  exact every c.toNat (by omega) digit

theorem number_digits {digits : Text} (all : ∀ c ∈ digits, isXDigit c = true) :
    number digits = hexValue digits := by
  have folds : ∀ value : Nat, digits.foldl (fun value c => 16 * value + digitValue c) value =
      digits.foldl (fun value c => 16 * value + nibble c) value := by
    induction digits with
    | nil => exact fun _ => rfl
    | cons c digits ih =>
        intro value
        rw [List.foldl_cons, List.foldl_cons, digitValue_digit (all c (by simp))]
        exact ih (fun d member => all d (by simp [member])) _
  exact folds 0

theorem packNibbles_pairs : ∀ {digits : Text}, (∀ c ∈ digits, isXDigit c = true) →
    digits.length % 2 = 0 → Pairs digits (packNibbles digits)
  | [], _, _ => Pairs.nil
  | [_], _, odd => by cases odd
  | high :: low :: digits, all, even => by
      have shorter : digits.length % 2 = 0 := by
        rw [List.length_cons, List.length_cons] at even
        omega
      have rest := packNibbles_pairs (fun c member => all c (by simp [member])) shorter
      rw [packNibbles, ← digitValue_digit (all high (by simp)), ← digitValue_digit (all low (by simp))]
      exact Pairs.cons rest

theorem pairs_unique {digits : Text} {bytes bytes' : List UInt8} (pairs : Pairs digits bytes)
    (pairs' : Pairs digits bytes') : bytes = bytes' := by
  induction pairs generalizing bytes' with
  | nil =>
      cases pairs'
      rfl
  | cons rest ih =>
      cases pairs' with
      | cons rest' => rw [ih rest']

theorem hexBytes_iff {text : Text} {bytes : List UInt8} :
    HexBytes text bytes ↔ isHexText text = true ∧ bytes = dataFromHexDigits text := by
  have packed : isHexText text = true → Pairs (digitsOf text) (dataFromHexDigits text) := by
    intro good
    simp only [isHexText, Bool.and_eq_true, List.all_eq_true, beq_iff_eq] at good
    exact packNibbles_pairs good.1 good.2
  constructor
  · rintro ⟨good, pairs⟩
    exact ⟨good, pairs_unique pairs (packed good)⟩
  · rintro ⟨good, rfl⟩
    exact ⟨good, packed good⟩

end Digits

section Openings

/-- What the expressions for hexadecimal data find: the type and the text behind the colon. -/
def hexOpening (line : Text) : Option (Nat × Text) :=
  ((after "hex:".toList line).map fun text => (3, text)).or (typed "hex(".toList line)

/-- What the expressions for strings find, before they ask for the quotes. -/
def stringOpening (line : Text) : Option (Nat × Text) :=
  (((after "str:".toList line).map fun text => (1, text)).or (typed "str(".toList line)).or
    (some (1, line))

theorem typed_iff {opening line text : Text} {t : Nat} :
    typed opening line = some (t, text) ↔ ∃ digits, digits ≠ [] ∧ (∀ c ∈ digits, isXDigit c = true) ∧
      t = number digits ∧ line = opening ++ digits ++ "):".toList ++ text := by
  constructor
  · intro found
    unfold typed at found
    split at found
    · cases found
    · next rest opens =>
        dsimp only at found
        split at found
        · cases found
        · next some =>
            obtain ⟨behind, closes, same⟩ := Option.map_eq_some_iff.mp found
            obtain ⟨rfl, rfl⟩ := Prod.mk.inj same
            have digits : ∀ c ∈ rest.takeWhile isXDigit, isXDigit c = true :=
              fun c member => List.mem_takeWhile_imp member
            refine ⟨rest.takeWhile isXDigit, some, digits, (number_digits digits).symm, ?_⟩
            have split := List.takeWhile_append_dropWhile (p := isXDigit) (l := rest)
            rw [after_eq_some closes] at split
            calc
              line = opening ++ rest := after_eq_some opens
              _ = opening ++ (rest.takeWhile isXDigit ++ ("):".toList ++ behind)) :=
                congrArg (opening ++ ·) split.symm
              _ = opening ++ rest.takeWhile isXDigit ++ "):".toList ++ behind := by
                simp only [List.append_assoc]
  · rintro ⟨digits, some, all, rfl, rfl⟩
    have stop : isXDigit ')' = false := by decide
    have front : (digits ++ ("):".toList ++ text)).takeWhile isXDigit = digits := by
      rw [List.takeWhile_append_of_pos all]
      simp [stop]
    have back : (digits ++ ("):".toList ++ text)).dropWhile isXDigit = "):".toList ++ text := by
      rw [List.dropWhile_append_of_pos all]
      simp [stop]
    have split : opening ++ digits ++ "):".toList ++ text =
        opening ++ (digits ++ ("):".toList ++ text)) := by
      simp only [List.append_assoc]
    simp only [typed, split, after_append, front, back, some, if_false, Option.map_some, number_digits all]

theorem after_diverges {c d : Char} (differ : c ≠ d) (front start rest : Text) :
    after (front ++ c :: start) (front ++ d :: rest) = none := by
  have apart : ¬(front ++ c :: start <+: front ++ d :: rest) := by
    rw [List.prefix_append_right_inj, List.cons_prefix_cons]
    exact fun begins => differ begins.1
  rw [after, if_neg apart]

theorem hexOpening_iff {line text : Text} {t : Nat} :
    hexOpening line = some (t, text) ↔ ∃ opening, HexOpening opening t ∧ line = opening ++ text := by
  constructor
  · intro found
    unfold hexOpening at found
    rcases Option.or_eq_some_iff.mp found with plain | ⟨-, found⟩
    · obtain ⟨behind, opens, same⟩ := Option.map_eq_some_iff.mp plain
      obtain ⟨rfl, rfl⟩ := Prod.mk.inj same
      exact ⟨_, HexOpening.binary, after_eq_some opens⟩
    · obtain ⟨digits, some, all, rfl, rfl⟩ := typed_iff.mp found
      exact ⟨_, HexOpening.typed some all, rfl⟩
  · rintro ⟨opening, opens, rfl⟩
    cases opens with
    | binary =>
        rw [hexOpening, after_append]
        rfl
    | typed some all =>
        rename_i digits
        have other : after "hex:".toList ("hex(".toList ++ digits ++ "):".toList ++ text) = none :=
          after_diverges (by decide : ':' ≠ '(') ['h', 'e', 'x'] [] (digits ++ "):".toList ++ text)
        rw [hexOpening, other, typed_iff.mpr ⟨digits, some, all, rfl, rfl⟩]
        rfl

theorem stringOpening_sound {line text : Text} {t : Nat} (found : stringOpening line = some (t, text)) :
    ∃ opening, StringOpening opening t ∧ line = opening ++ text := by
  unfold stringOpening at found
  rcases Option.or_eq_some_iff.mp found with found | ⟨-, bare⟩
  · rcases Option.or_eq_some_iff.mp found with plain | ⟨-, found⟩
    · obtain ⟨behind, opens, same⟩ := Option.map_eq_some_iff.mp plain
      obtain ⟨rfl, rfl⟩ := Prod.mk.inj same
      exact ⟨_, StringOpening.plain, after_eq_some opens⟩
    · obtain ⟨digits, some, all, rfl, rfl⟩ := typed_iff.mp found
      exact ⟨_, StringOpening.typed some all, rfl⟩
  · obtain ⟨rfl, rfl⟩ := Prod.mk.inj (Option.some.inj bare)
    exact ⟨_, StringOpening.bare, rfl⟩

theorem typed_other {c d : Char} (differ : c ≠ d) (start rest : Text) :
    typed (c :: start) (d :: rest) = none := by
  rw [typed, after_none_of_head differ]

theorem stringOpening_complete {opening text : Text} {t : Nat} (opens : StringOpening opening t) :
    stringOpening (opening ++ quote :: text) = some (t, quote :: text) := by
  cases opens with
  | bare =>
      have plain : after "str:".toList ([] ++ quote :: text) = none :=
        after_none_of_head (by decide : 's' ≠ quote)
      have typed : typed "str(".toList ([] ++ quote :: text) = none :=
        typed_other (by decide : 's' ≠ quote) _ _
      rw [stringOpening, plain, typed]
      rfl
  | plain =>
      rw [stringOpening, after_append]
      rfl
  | typed some all =>
      rename_i digits
      have other : after "str:".toList ("str(".toList ++ digits ++ "):".toList ++ quote :: text) = none :=
        after_diverges (by decide : ':' ≠ '(') ['s', 't', 'r'] [] (digits ++ "):".toList ++ quote :: text)
      rw [stringOpening, other, typed_iff.mpr ⟨digits, some, all, rfl, rfl⟩]
      rfl

theorem dwordDigits_iff {line digits : Text} : dwordDigits line = some digits ↔
    digits.length = 8 ∧ (∀ c ∈ digits, isXDigit c = true) ∧ line = "dword:".toList ++ digits := by
  rw [dwordDigits, Option.filter_eq_some_iff]
  simp only [decide_eq_true_eq, List.all_eq_true]
  constructor
  · rintro ⟨found, eight, all⟩
    exact ⟨eight, all, after_eq_some found⟩
  · rintro ⟨eight, all, rfl⟩
    exact ⟨after_append _ _, eight, all⟩

end Openings

section Data
variable (encode : Text → List UInt8)

theorem not_quoted_head {c : Char} (differ : c ≠ quote) (rest : Text) : isQuoted (c :: rest) = false := by
  simp [isQuoted, differ]

/-- The cascade of expressions as three questions. -/
theorem parseValue_cascade (key text : Text) :
    parseValue encode key text = match dwordDigits (chomp text) with
      | some digits => some ⟨key, 4, packV (hexValue digits)⟩
      | none => match hexOpening (chomp text) with
        | some (t, digits) => some ⟨key, t, dataFromHexDigits digits⟩
        | none => match (stringOpening (chomp text)).filter (isQuoted ∘ Prod.snd) with
          | some (t, string) => parseString encode key t string
          | none => none := by
  unfold parseValue hexOpening stringOpening
  generalize chomp text = line
  dsimp only
  cases dword : dwordDigits line with
  | some digits => rfl
  | none =>
      cases hex : after "hex:".toList line with
      | some digits => rfl
      | none =>
          cases hexTyped : typed "hex(".toList line with
          | some found => rfl
          | none =>
              have differ : 's' ≠ quote := by decide
              cases plain : after "str:".toList line with
              | none =>
                  cases strTyped : typed "str(".toList line with
                  | none =>
                      cases quoted : isQuoted line <;> simp [Option.filter, quoted]
                  | some found =>
                      obtain ⟨digits, -, -, -, rfl⟩ := typed_iff.mp strTyped
                      have notBare : isQuoted ("str(".toList ++ digits ++ "):".toList ++ found.2) = false :=
                        not_quoted_head differ _
                      rw [notBare]
                      cases quoted : isQuoted found.2 <;> simp [Option.filter, quoted]
              | some string =>
                  have notTyped : typed "str(".toList line = none := by
                    rw [after_eq_some plain, typed]
                    have other := after_diverges (by decide : '(' ≠ ':') ['s', 't', 'r'] [] string
                    rw [show after "str(".toList ("str:".toList ++ string) = none from other]
                  have notBare : isQuoted line = false := by
                    rw [after_eq_some plain]
                    exact not_quoted_head differ _
                  rw [notTyped, notBare]
                  cases quoted : isQuoted string <;> simp [Option.filter, quoted]

theorem HexOpening.head {opening : Text} {t : Nat} (opens : HexOpening opening t) (text : Text) :
    (opening ++ text).head? = some 'h' := by
  cases opens with
  | binary => rfl
  | typed some all => rfl

theorem StringOpening.head {opening source out : Text} {t : Nat} (opens : StringOpening opening t)
    (string : Quoted source out) (behind : Text) :
    (opening ++ (source ++ behind)).head? = some 's' ∨
      (opening ++ (source ++ behind)).head? = some quote := by
  cases string with
  | between chars =>
      cases opens with
      | bare => exact Or.inr rfl
      | plain => exact Or.inl rfl
      | typed some all => exact Or.inl rfl

theorem no_dword {line : Text} (head : line.head? ≠ some 'd') : dwordDigits line = none := by
  cases found : dwordDigits line with
  | none => rfl
  | some digits =>
      obtain ⟨-, -, rfl⟩ := dwordDigits_iff.mp found
      exact absurd rfl head

theorem no_hex {line : Text} (head : line.head? ≠ some 'h') : hexOpening line = none := by
  cases found : hexOpening line with
  | none => rfl
  | some found' =>
      obtain ⟨opening, opens, rfl⟩ := hexOpening_iff.mp found
      exact absurd (opens.head _) head

theorem Quoted.isQuoted {source out behind : Text} (string : Quoted source out)
    (ends : behind = [] ∨ behind.getLast? = some quote) : Regedit.isQuoted (source ++ behind) = true := by
  cases string with
  | between chars =>
      rename_i body
      have last : (quote :: body ++ [quote] ++ behind).getLast? = some quote := by
        rcases ends with rfl | ends
        · rw [List.append_nil]
          exact List.getLast?_concat
        · rw [List.getLast?_append, ends]
          rfl
      rw [Regedit.isQuoted, last]
      simp only [List.cons_append, List.length_cons, List.length_append, List.head?_cons, beq_self_eq_true,
        Bool.and_true, decide_eq_true_eq]
      omega

/-- The question about strings, answered for a quoted string. -/
theorem parseValue_string {opening source out behind text : Text} {t : Nat} (key : Text)
    (opens : StringOpening opening t) (string : Quoted source out)
    (ends : behind = [] ∨ behind.getLast? = some quote)
    (line : chomp text = opening ++ (source ++ behind)) :
    parseValue encode key text = some ⟨key, t, encode (out ++ ['\x00'])⟩ := by
  have heads := opens.head string behind
  have noDword : dwordDigits (opening ++ (source ++ behind)) = none := by
    apply no_dword
    rcases heads with head | head <;> rw [head] <;> decide
  have noHex : hexOpening (opening ++ (source ++ behind)) = none := by
    apply no_hex
    rcases heads with head | head <;> rw [head] <;> decide
  have found : stringOpening (opening ++ (source ++ behind)) = some (t, source ++ behind) := by
    cases string with
    | between chars => exact stringOpening_complete opens
  have quoted : (some (t, source ++ behind)).filter (isQuoted ∘ Prod.snd) = some (t, source ++ behind) := by
    simp [Option.filter, string.isQuoted ends]
  rw [parseValue_cascade, line, noDword, noHex, found, quoted]
  dsimp only
  rw [parseString, parse_quoted string]
  rfl

theorem parseValue_hex {opening digits text : Text} {t : Nat} (key : Text) (opens : HexOpening opening t)
    (line : chomp text = opening ++ digits) :
    parseValue encode key text = some ⟨key, t, dataFromHexDigits digits⟩ := by
  have noDword : dwordDigits (opening ++ digits) = none := by
    apply no_dword
    simp [opens.head digits]
  rw [parseValue_cascade, line, noDword, hexOpening_iff.mpr ⟨opening, opens, rfl⟩]

theorem parseValue_complete {d text : Text} {t : Nat} {bytes : List UInt8} (key : Text)
    (data : Data encode d t bytes) (line : chomp text = d) :
    parseValue encode key text = some ⟨key, t, bytes⟩ := by
  cases data with
  | dword eight all =>
      rw [parseValue_cascade, line, dwordDigits_iff.mpr ⟨eight, all, rfl⟩, number_digits all]
  | hex opens listed =>
      obtain ⟨-, rfl⟩ := hexBytes_iff.mp listed
      exact parseValue_hex encode key opens line
  | string opens string =>
      apply parseValue_string encode key opens string (Or.inl rfl)
      rw [line, List.append_nil]

theorem parseValue_loose {d : Text} (key : Text) (loose : LooseData d) :
    ∃ value, ∀ text, chomp text = d → parseValue encode key text = some value := by
  cases loose with
  | hex opens bad => exact ⟨_, fun _ line => parseValue_hex encode key opens line⟩
  | string opens string ends =>
      exact ⟨_, fun _ line => parseValue_string encode key opens string (Or.inr ends) line⟩

/-- What is taken for data is data or loose data. -/
theorem parseValue_sound {key text : Text} {value : Value}
    (parsed : parseValue encode key text = some value) :
    (∃ t bytes, Data encode (chomp text) t bytes ∧ value = ⟨key, t, bytes⟩) ∨ LooseData (chomp text) := by
  rw [parseValue_cascade] at parsed
  generalize chomp text = d at parsed
  split at parsed
  · next digits found =>
      obtain ⟨eight, all, rfl⟩ := dwordDigits_iff.mp found
      rw [← number_digits all] at parsed
      exact Or.inl ⟨_, _, Data.dword eight all, (Option.some.inj parsed).symm⟩
  · split at parsed
    · next t digits found =>
        obtain ⟨opening, opens, rfl⟩ := hexOpening_iff.mp found
        cases good : isHexText digits with
        | true =>
            have listed := hexBytes_iff.mpr ⟨good, rfl⟩
            exact Or.inl ⟨_, _, Data.hex opens listed, (Option.some.inj parsed).symm⟩
        | false => exact Or.inr (LooseData.hex opens good)
    · split at parsed
      · next t string found =>
          obtain ⟨found, quoted⟩ := Option.filter_eq_some_iff.mp found
          obtain ⟨opening, opens, rfl⟩ := stringOpening_sound found
          obtain ⟨⟨out, behind⟩, read, same⟩ := Option.map_eq_some_iff.mp parsed
          have last : string.getLast? = some quote := by
            simp only [Function.comp_apply, isQuoted, Bool.and_eq_true, beq_iff_eq] at quoted
            exact quoted.2
          rcases parseQuotedString_sound read with ⟨source, whole, rfl⟩ | ⟨-, other⟩
          · by_cases more : behind = []
            · subst more
              rw [List.append_nil]
              exact Or.inl ⟨_, _, Data.string opens whole, same.symm⟩
            · have ends : behind.getLast? = some quote := by
                rw [List.getLast?_append_of_ne_nil _ more] at last
                exact last
              exact Or.inr (LooseData.string opens whole ends)
          · rw [other] at last
            exact absurd last (by decide)
      · cases parsed

/-- Loose data is outside the grammar. -/
theorem LooseData.not_data {d : Text} {t : Nat} {bytes : List UInt8} (loose : LooseData d) :
    ¬Data encode d t bytes := by
  intro data
  cases loose with
  | hex opens bad =>
      rename_i opening digits t'
      have found : hexOpening (opening ++ digits) = some (t', digits) := hexOpening_iff.mpr ⟨_, opens, rfl⟩
      have head := opens.head digits
      generalize opening ++ digits = d at data found head
      cases data with
      | dword eight all => cases head
      | hex opens' listed =>
          rw [hexOpening_iff.mpr ⟨_, opens', rfl⟩] at found
          obtain ⟨rfl, rfl⟩ := Prod.mk.inj (Option.some.inj found)
          rw [(hexBytes_iff.mp listed).1] at bad
          cases bad
      | string opens' string =>
          have other := opens'.head string []
          rw [List.append_nil, head] at other
          rcases other with other | other
          · exact absurd other (by decide)
          · exact absurd other (by decide)
  | string opens string ends =>
      rename_i opening source out behind t'
      have heads := opens.head string behind
      have found : stringOpening (opening ++ (source ++ behind)) = some (t', source ++ behind) := by
        cases string with
        | between chars => exact stringOpening_complete opens
      generalize opening ++ (source ++ behind) = d at data found heads
      cases data with
      | dword eight all => rcases heads with head | head <;> cases head
      | hex opens' listed =>
          rw [opens'.head] at heads
          rcases heads with head | head
          · exact absurd head (by decide)
          · exact absurd head (by decide)
      | string opens' string' =>
          rename_i opening' source' out'
          have found' : stringOpening (opening' ++ source') = some (t, source') := by
            cases string' with
            | between chars => exact stringOpening_complete opens'
          rw [found'] at found
          obtain ⟨-, same⟩ := Prod.mk.inj (Option.some.inj found)
          have read := parse_quoted string' []
          rw [List.append_nil, same, parse_quoted string] at read
          obtain ⟨-, rfl⟩ := Prod.mk.inj (Option.some.inj read)
          cases ends

end Data

section Blanks

theorem trimEnd_blank {text spaces : Text} (blank : isBlank spaces = true) :
    trimEnd (text ++ spaces) = trimEnd text := by
  induction spaces using List.reverseRecOn with
  | nil => rw [List.append_nil]
  | append_singleton spaces c ih =>
      have both := (List.all_append ..).symm.trans blank
      rw [Bool.and_eq_true] at both
      have space : isSpace c = true := by simpa using both.2
      rw [← List.append_assoc]
      exact (List.rdropWhile_concat_pos isSpace _ c space).trans (ih both.1)

theorem trimEnd_split (text : Text) : ∃ spaces, isBlank spaces = true ∧ text = trimEnd text ++ spaces := by
  induction text using List.reverseRecOn with
  | nil => exact ⟨[], rfl, rfl⟩
  | append_singleton text c ih =>
      cases space : isSpace c with
      | true =>
          obtain ⟨spaces, blank, split⟩ := ih
          refine ⟨spaces ++ [c], ?_, ?_⟩
          · simp only [isBlank] at blank
            simp [isBlank, blank, space]
          · rw [← List.append_assoc, trimEnd, List.rdropWhile_concat_pos isSpace _ c space]
            exact congrArg (· ++ [c]) split
      | false => exact ⟨[], rfl, by rw [trimEnd_of_last space, List.append_nil]⟩

theorem chomp_split (line : Text) : line = chomp line ∨ line = chomp line ++ ['\n'] := by
  unfold chomp
  split
  · next last => exact Or.inr (List.dropLast_append_getLast? _ last).symm
  · exact Or.inl rfl

theorem trimEnd_chomp (line : Text) : trimEnd (chomp line) = trimEnd line := by
  rcases chomp_split line with same | ended
  · rw [← same]
  · have blank : isBlank ['\n'] = true := rfl
    rw [ended, chomp_line, trimEnd_blank blank]

/-- A deletion of a named value: a quote, and the sign behind anything. -/
theorem isDeleteValue_iff {line : Text} : isDeleteValue line = true ↔
    ∃ inside spaces, isBlank spaces = true ∧ chomp line = quote :: inside ++ '=' :: '-' :: spaces := by
  unfold isDeleteValue
  rw [← trimEnd_chomp]
  constructor
  · intro found
    obtain ⟨spaces, blank, split⟩ := trimEnd_split (chomp line)
    cases shape : trimEnd (chomp line) with
    | nil =>
        rw [shape] at found
        cases found
    | cons c rest =>
        rw [shape] at found split
        simp only [Bool.and_eq_true, beq_iff_eq, decide_eq_true_eq] at found
        obtain ⟨rfl, inside, rfl⟩ := found
        refine ⟨inside, spaces, blank, ?_⟩
        rw [split]
        simp
  · rintro ⟨inside, spaces, blank, split⟩
    have solid : isSpace '-' = false := by decide
    have shape : trimEnd (quote :: inside ++ '=' :: '-' :: spaces) = quote :: (inside ++ ['=', '-']) := by
      have front : quote :: inside ++ '=' :: '-' :: spaces = (quote :: inside ++ ['=']) ++ ['-'] ++ spaces := by
        simp
      rw [front, trimEnd_blank blank, trimEnd_of_last solid]
      simp
    rw [split, shape]
    simp

theorem isDeleteDefault_iff {line : Text} : isDeleteDefault line = true ↔
    ∃ spaces, isBlank spaces = true ∧ chomp line = '@' :: '=' :: '-' :: spaces := by
  unfold isDeleteDefault
  rw [← trimEnd_chomp, beq_iff_eq]
  constructor
  · intro same
    obtain ⟨spaces, blank, split⟩ := trimEnd_split (chomp line)
    rw [same] at split
    exact ⟨spaces, blank, split⟩
  · rintro ⟨spaces, blank, split⟩
    have solid : isSpace '-' = false := by decide
    have front : '@' :: '=' :: '-' :: spaces = ['@', '='] ++ ['-'] ++ spaces := rfl
    rw [split, front, trimEnd_blank blank, trimEnd_of_last solid]
    rfl

end Blanks

section Lines
variable {encode : Text → List UInt8} {newnode : Text} {newvalues : List Value}
  {delvalues : List Text} {h : Hive} {line : Text} {lineno : Nat}

/-- The section with one more record. -/
def Record.addTo (newnode : Text) (newvalues : List Value) (delvalues : List Text) : Record → State
  | .set value => .inner newnode (newvalues ++ [value]) delvalues
  | .delete key => .inner newnode newvalues (delvalues ++ [key])

theorem Quoted.append {source out : Text} (string : Quoted source out) (rest : Text) :
    ∃ body, source ++ rest = quote :: (body ++ quote :: rest) := by
  cases string with
  | between chars =>
      rename_i body
      exact ⟨body, by simp⟩

theorem quoted_last {source out : Text} (string : Quoted source out) : ∃ front, source = front ++ [quote] := by
  cases string with
  | between chars => exact ⟨_, rfl⟩

theorem chomp_behind {source rest : Text} (split : line = source ++ rest) (some : rest ≠ []) :
    chomp line = source ++ chomp rest := by
  unfold chomp
  rw [split, List.getLast?_append_of_ne_nil source some]
  split
  · exact List.dropLast_append_of_ne_nil some
  · rfl

theorem parse_of_chomp {source out rest : Text} (string : Quoted source out)
    (split : chomp line = source ++ rest) :
    ∃ rest', parseQuotedString line = some (out, rest') ∧ (rest' = rest ∨ rest' = rest ++ ['\n']) := by
  rcases chomp_split line with same | ended
  · rw [← same] at split
    exact ⟨rest, by rw [split]; exact parse_quoted string rest, Or.inl rfl⟩
  · rw [split, List.append_assoc] at ended
    exact ⟨rest ++ ['\n'], by rw [ended]; exact parse_quoted string _, Or.inr rfl⟩

theorem deletion_chars {spaces : Text} (blank : isBlank spaces = true) {c : Char}
    (member : c ∈ '=' :: '-' :: spaces) : c = '=' ∨ c = '-' ∨ isSpace c = true := by
  rw [List.mem_cons, List.mem_cons] at member
  exact member.imp_right fun later => later.imp_right (List.all_eq_true.mp blank c)

theorem quote_not_deletion {spaces : Text} (blank : isBlank spaces = true) :
    quote ∉ '=' :: '-' :: spaces :=
  fun member => absurd (deletion_chars blank member) (by decide)

theorem deletion_last {inside spaces : Text} (blank : isBlank spaces = true)
    (split : chomp line = inside ++ '=' :: '-' :: spaces) : line.getLast? ≠ some backslash := by
  intro last
  rcases chomp_split line with same | ended
  · rw [same, split, List.getLast?_append_of_ne_nil _ (by simp)] at last
    exact absurd (deletion_chars blank (List.mem_of_getLast? last)) (by decide)
  · rw [ended, List.getLast?_concat] at last
    exact absurd last (by decide)

-- The sign behind a quoted string stands behind its closing quote.
theorem deletion_behind {source out rest inside spaces : Text} (string : Quoted source out)
    (blank : isBlank spaces = true) (same : source ++ rest = inside ++ '=' :: '-' :: spaces) :
    ∃ behind, rest = behind ++ '=' :: '-' :: spaces := by
  rcases List.append_eq_append_iff.mp same with ⟨m, -, rest'⟩ | ⟨m, split, tail⟩
  · exact ⟨m, rest'⟩
  · cases m using List.reverseRecOn with
    | nil => exact ⟨[], tail.symm⟩
    | append_singleton m last =>
        obtain ⟨front, closing⟩ := quoted_last string
        rw [closing, ← List.append_assoc] at split
        obtain rfl : quote = last := List.singleton_inj.mp (List.append_inj' split rfl).2
        have member : quote ∈ '=' :: '-' :: spaces := by
          rw [tail]
          simp
        exact absurd member (quote_not_deletion blank)

/-- Data of the grammar does not end like a deletion. -/
theorem Data.not_deletion {behind spaces : Text} {t : Nat} {bytes : List UInt8}
    (blank : isBlank spaces = true) : ¬Data encode (behind ++ '=' :: '-' :: spaces) t bytes := by
  intro data
  generalize shape : behind ++ '=' :: '-' :: spaces = d at data
  have minus : '-' ∈ d := by
    rw [← shape]
    simp
  have noDigit : isXDigit '-' = false := by decide
  have other : ∀ {digits : Text}, (∀ c ∈ digits, isXDigit c = true) → '-' ∉ digits := by
    intro digits all member
    rw [all '-' member] at noDigit
    cases noDigit
  cases data with
  | dword eight all =>
      have keyword : '-' ∉ "dword:".toList := by decide
      exact (List.mem_append.mp minus).elim keyword (other all)
  | hex opens listed =>
      rcases List.mem_append.mp minus with keyword | inText
      · cases opens with
        | binary => exact absurd keyword (by decide)
        | typed some all =>
            have opening : '-' ∉ "hex(".toList := by decide
            have closing : '-' ∉ "):".toList := by decide
            simp only [List.mem_append] at keyword
            exact keyword.elim (fun front => front.elim opening (other all)) closing
      · obtain ⟨good, -⟩ := hexBytes_iff.mp listed
        simp only [isHexText, Bool.and_eq_true, List.all_eq_true] at good
        have digit := good.1 '-' (List.mem_filter.mpr ⟨inText, by decide⟩)
        rw [digit] at noDigit
        cases noDigit
  | string opens string =>
      rename_i opening source out
      obtain ⟨front, closing⟩ := quoted_last string
      have last : (behind ++ '=' :: '-' :: spaces).getLast? = some quote := by
        rw [shape, closing, ← List.append_assoc]
        exact List.getLast?_concat
      rw [List.getLast?_append_of_ne_nil _ (by simp)] at last
      exact quote_not_deletion blank (List.mem_of_getLast? last)

/-- A named value is matched as one unless it looks like a deletion. -/
theorem isOrdinaryValue_quoted {source out d : Text} (string : Quoted source out)
    (split : chomp line = source ++ '=' :: d) : isOrdinaryValue line = true := by
  obtain ⟨body, shape⟩ := string.append ('=' :: d)
  have front : ∃ ending, line = quote :: (body ++ quote :: '=' :: d) ++ ending := by
    rw [← shape, ← split]
    rcases chomp_split line with same | ended
    · exact ⟨[], by rw [List.append_nil]; exact same⟩
    · exact ⟨['\n'], ended⟩
  obtain ⟨ending, rfl⟩ := front
  have found : [quote, '='] <:+: body ++ quote :: '=' :: (d ++ ending) :=
    ⟨body, d ++ ending, by simp⟩
  simp only [List.cons_append, List.append_assoc, isOrdinaryValue, beq_self_eq_true, Bool.true_and,
    decide_eq_true_eq]
  exact found

theorem parseKeyValue_quoted {source name d : Text} {value : Option Value} (string : Quoted source name)
    (split : chomp line = source ++ '=' :: d) (plain : '\n' ∉ chomp line)
    (parsed : ∀ text, chomp text = d → parseValue encode name text = value) :
    parseKeyValue encode line = value := by
  obtain ⟨rest, read, shape⟩ := parse_of_chomp string split
  have free : '\n' ∉ d := by
    intro member
    apply plain
    rw [split]
    simp [member]
  rw [parseKeyValue, read]
  dsimp only
  rcases shape with rfl | rfl
  · have found : after ['='] ('=' :: d) = some d := after_append ['='] d
    rw [found]
    exact parsed d (chomp_of_newlineFree free)
  · have found : after ['='] ('=' :: d ++ ['\n']) = some (d ++ ['\n']) := after_append ['='] _
    rw [found]
    exact parsed _ (chomp_line d)

theorem Data.head {d : Text} {t : Nat} {bytes : List UInt8} (data : Data encode d t bytes) :
    d.head? ≠ some '-' := by
  cases data with
  | dword eight all =>
      rename_i digits
      have first : ("dword:".toList ++ digits).head? = some 'd' := rfl
      rw [first]
      decide
  | hex opens listed =>
      rw [opens.head]
      decide
  | string opens string =>
      have heads := opens.head string []
      rw [List.append_nil] at heads
      rcases heads with head | head <;> rw [head] <;> decide

theorem LooseData.head {d : Text} (loose : LooseData d) : d.head? ≠ some '-' := by
  cases loose with
  | hex opens bad =>
      rw [opens.head]
      decide
  | string opens string ends =>
      rcases opens.head string _ with head | head <;> rw [head] <;> decide

theorem Quoted.not_default {source out rest : Text} (string : Quoted source out)
    (split : chomp line = source ++ rest) : isDeleteDefault line = false := by
  cases found : isDeleteDefault line with
  | false => rfl
  | true =>
      obtain ⟨spaces, -, shape⟩ := isDeleteDefault_iff.mp found
      obtain ⟨body, opening⟩ := string.append rest
      rw [split, opening] at shape
      exact absurd (List.cons.inj shape).1 (by decide)

theorem default_not_delete {rest : Text} (split : chomp line = '@' :: rest) :
    isDeleteValue line = false ∧ isOrdinaryValue line = false := by
  constructor
  · cases found : isDeleteValue line with
    | false => rfl
    | true =>
        obtain ⟨inside, spaces, -, shape⟩ := isDeleteValue_iff.mp found
        rw [split] at shape
        exact absurd (List.cons.inj shape).1 (by decide)
  · rcases chomp_split line with same | ended
    · rw [same, split]
      rfl
    · rw [ended, split]
      rfl

theorem innerLine_delete {source name behind spaces : Text} (string : Quoted source name)
    (blank : isBlank spaces = true) (split : chomp line = source ++ (behind ++ '=' :: '-' :: spaces)) :
    innerLine encode newnode newvalues delvalues h line lineno =
      .ok ((Record.delete name).addTo newnode newvalues delvalues, h) := by
  obtain ⟨front, closing⟩ := quoted_last string
  obtain ⟨body, opening⟩ := string.append []
  rw [List.append_nil] at opening
  have found : isDeleteValue line = true := by
    apply isDeleteValue_iff.mpr
    refine ⟨body ++ [quote] ++ behind, spaces, blank, ?_⟩
    rw [split, opening]
    simp
  obtain ⟨rest, read, -⟩ := parse_of_chomp string split
  simp only [innerLine, found, if_true, read]
  rfl

theorem innerLine_delete_default {spaces : Text} (blank : isBlank spaces = true)
    (split : chomp line = '@' :: '=' :: '-' :: spaces) :
    innerLine encode newnode newvalues delvalues h line lineno =
      .ok ((Record.delete []).addTo newnode newvalues delvalues, h) := by
  have found : isDeleteDefault line = true := isDeleteDefault_iff.mpr ⟨spaces, blank, split⟩
  simp only [innerLine, (default_not_delete split).1, found, Bool.false_eq_true, if_false, if_true]
  rfl

theorem innerLine_set {source name d : Text} {value : Value} (string : Quoted source name)
    (split : chomp line = source ++ '=' :: d) (plain : '\n' ∉ chomp line)
    (kept : isDeleteValue line = false)
    (parsed : ∀ text, chomp text = d → parseValue encode name text = some value) :
    innerLine encode newnode newvalues delvalues h line lineno =
      .ok ((Record.set value).addTo newnode newvalues delvalues, h) := by
  simp only [innerLine, kept, string.not_default split, isOrdinaryValue_quoted string split,
    parseKeyValue_quoted string split plain parsed, Bool.false_eq_true, if_false, if_true]
  rfl

theorem innerLine_set_default {d : Text} {value : Value} (split : chomp line = '@' :: '=' :: d)
    (plain : '\n' ∉ chomp line) (head : d.head? ≠ some '-')
    (parsed : ∀ text, chomp text = d → parseValue encode [] text = some value) :
    innerLine encode newnode newvalues delvalues h line lineno =
      .ok ((Record.set value).addTo newnode newvalues delvalues, h) := by
  obtain ⟨notDelete, notOrdinary⟩ := default_not_delete split
  have notDefault : isDeleteDefault line = false := by
    cases found : isDeleteDefault line with
    | false => rfl
    | true =>
        obtain ⟨spaces, -, shape⟩ := isDeleteDefault_iff.mp found
        rw [split] at shape
        rw [(List.cons.inj (List.cons.inj shape).2).2] at head
        exact absurd rfl head
  have free : '\n' ∉ d := by
    intro member
    apply plain
    rw [split]
    simp [member]
  have text : ∃ text, after ['@', '='] line = some text ∧ chomp text = d := by
    rcases chomp_split line with same | ended
    · exact ⟨d, by rw [same, split]; exact after_append ['@', '='] d, chomp_of_newlineFree free⟩
    · exact ⟨d ++ ['\n'], by rw [ended, split]; exact after_append ['@', '='] _, chomp_line d⟩
  obtain ⟨text, found, rfl⟩ := text
  simp only [innerLine, notDelete, notDefault, notOrdinary, found,
    parsed (chomp text) (chomp_of_newlineFree free), Bool.false_eq_true, if_false]
  rfl

/-- A line of the grammar is recorded as what it stands for. -/
theorem innerLine_complete {r : Record} (plain : '\n' ∉ chomp line) (denotes : Denotes encode (chomp line) r) :
    innerLine encode newnode newvalues delvalues h line lineno =
      .ok (r.addTo newnode newvalues delvalues, h) := by
  generalize split : chomp line = body at denotes
  cases denotes with
  | set key data =>
      have parsed : ∀ {name : Text} text, chomp text = _ → parseValue encode name text = some ⟨name, _, _⟩ :=
        fun text same => parseValue_complete encode _ data same
      cases key with
      | default => exact innerLine_set_default split plain data.head parsed
      | named string =>
          apply innerLine_set string split plain _ parsed
          cases found : isDeleteValue line with
          | false => rfl
          | true =>
              obtain ⟨inside, spaces, blank, shape⟩ := isDeleteValue_iff.mp found
              rw [split] at shape
              obtain ⟨behind, same⟩ := deletion_behind string blank shape
              cases behind with
              | nil =>
                  rw [(List.cons.inj same).2] at data
                  exact absurd rfl data.head
              | cons c behind =>
                  rw [(List.cons.inj same).2] at data
                  exact absurd data (Data.not_deletion blank)
  | delete key blank =>
      cases key with
      | default => exact innerLine_delete_default blank split
      | named string => exact @innerLine_delete _ _ _ _ _ _ _ _ _ [] _ string blank split

theorem innerLine_loose (plain : '\n' ∉ chomp line) (loose : Loose (chomp line)) :
    ∃ r : Record, innerLine encode newnode newvalues delvalues h line lineno =
      .ok (r.addTo newnode newvalues delvalues, h) := by
  generalize split : chomp line = body at loose
  cases loose with
  | set key data =>
      rename_i k name d
      obtain ⟨value, parsed⟩ := parseValue_loose encode name data
      cases key with
      | default => exact ⟨_, innerLine_set_default split plain data.head parsed⟩
      | named string =>
          cases found : isDeleteValue line with
          | false => exact ⟨_, innerLine_set string split plain found parsed⟩
          | true =>
              obtain ⟨inside, spaces, blank, shape⟩ := isDeleteValue_iff.mp found
              rw [split] at shape
              obtain ⟨behind, same⟩ := deletion_behind string blank shape
              rw [same] at split
              exact ⟨_, innerLine_delete string blank split⟩
  | delete string more blank => exact ⟨_, innerLine_delete string blank split⟩

theorem Record.addTo_inj {r r' : Record}
    (same : r.addTo newnode newvalues delvalues = r'.addTo newnode newvalues delvalues) : r = r' := by
  cases r with
  | set value =>
      cases r' with
      | set value' => simpa [addTo] using same
      | delete key' => simp [addTo] at same
  | delete key =>
      cases r' with
      | set value' => simp [addTo] at same
      | delete key' => simpa [addTo] using same

theorem chomp_cons {c : Char} (solid : c ≠ '\n') (text : Text) : chomp (c :: text) = c :: chomp text := by
  by_cases none : text = []
  · subst none
    apply chomp_of_newlineFree
    rw [List.mem_singleton]
    exact solid.symm
  · exact chomp_behind (List.singleton_append).symm none

theorem parse_chomped {out rest : Text} (read : parseQuotedString line = some (out, rest)) :
    (∃ source, Quoted source out ∧ chomp line = source ++ chomp rest) ∨
      rest = [] ∧ line.getLast? = some backslash := by
  rcases parseQuotedString_sound read with ⟨source, string, split⟩ | past
  · left
    by_cases none : rest = []
    · subst none
      obtain ⟨front, closing⟩ := quoted_last string
      have same : chomp line = line := by
        rw [chomp, split, List.append_nil, closing, List.getLast?_concat, if_neg (by decide)]
      exact ⟨source, string, same.trans split⟩
    · exact ⟨source, string, chomp_behind split none⟩
  · exact Or.inr past

/-- A record comes from a line of the grammar or from a loose one; any other line is
blank or stops the import. -/
theorem innerLine_sound (plain : '\n' ∉ chomp line) : (∃ r, innerLine encode newnode newvalues delvalues h line lineno =
      .ok (Record.addTo newnode newvalues delvalues r, h) ∧
        (Denotes encode (chomp line) r ∨ Loose (chomp line))) ∨
    (isBlank line = true ∧ ∀ r, innerLine encode newnode newvalues delvalues h line lineno ≠
      .ok (Record.addTo newnode newvalues delvalues r, h)) ∨
    ∃ message, innerLine encode newnode newvalues delvalues h line lineno = .error (.croak message) := by
  unfold innerLine
  dsimp only
  split
  · next deletes =>
      split
      · exact Or.inr (Or.inr ⟨_, rfl⟩)
      · next key rest read =>
          left
          refine ⟨.delete key, rfl, ?_⟩
          obtain ⟨inside, spaces, blank, shape⟩ := isDeleteValue_iff.mp deletes
          rcases parse_chomped read with ⟨source, string, split⟩ | ⟨-, past⟩
          · rw [split] at shape
            obtain ⟨behind, same⟩ := deletion_behind string blank shape
            rw [split, same]
            by_cases none : behind = []
            · subst none
              exact Or.inl (Denotes.delete (Key.named string) blank)
            · exact Or.inr (Loose.delete string none blank)
          · exact absurd past (deletion_last blank shape)
  · split
    · next default =>
        obtain ⟨spaces, blank, shape⟩ := isDeleteDefault_iff.mp default
        rw [shape]
        exact Or.inl ⟨.delete [], rfl, Or.inl (Denotes.delete Key.default blank)⟩
    · split
      · cases parsed : parseKeyValue encode line with
        | none => exact Or.inr (Or.inr ⟨_, rfl⟩)
        | some value =>
            left
            refine ⟨.set value, rfl, ?_⟩
            unfold parseKeyValue at parsed
            split at parsed
            · cases parsed
            · next key rest read =>
                obtain ⟨text, opens, parsed⟩ := Option.bind_eq_some_iff.mp parsed
                obtain rfl := after_eq_some opens
                rcases parse_chomped read with ⟨source, string, shape⟩ | ⟨none, -⟩
                · rw [List.singleton_append, chomp_cons (by decide)] at shape
                  rw [shape]
                  rcases parseValue_sound encode parsed with ⟨t, bytes, data, rfl⟩ | loose
                  · exact Or.inl (Denotes.set (Key.named string) data)
                  · exact Or.inr (Loose.set (Key.named string) loose)
                · cases none
      · split
        · next text opens =>
            cases parsed : parseValue encode [] (chomp text) with
            | none => exact Or.inr (Or.inr ⟨_, rfl⟩)
            | some value =>
                left
                refine ⟨.set value, rfl, ?_⟩
                have shape : chomp line = '@' :: '=' :: chomp text := by
                  rw [after_eq_some opens, List.cons_append, List.singleton_append, chomp_cons (by decide),
                    chomp_cons (by decide)]
                have free : '\n' ∉ chomp text := by
                  rw [shape] at plain
                  exact fun member => plain (by simp [member])
                have sound := parseValue_sound encode parsed
                rw [chomp_of_newlineFree free] at sound
                rw [shape]
                rcases sound with ⟨t, bytes, data, rfl⟩ | loose
                · exact Or.inl (Denotes.set Key.default data)
                · exact Or.inr (Loose.set Key.default loose)
        · split
          · next blank =>
              refine Or.inr (Or.inl ⟨blank, fun r recorded => ?_⟩)
              cases merged : mergeNode h newnode newvalues delvalues with
              | error stop =>
                  rw [merged] at recorded
                  cases recorded
              | ok g =>
                  rw [merged] at recorded
                  cases r with
                  | set value => cases recorded
                  | delete key => cases recorded
          · exact Or.inr (Or.inr ⟨_, rfl⟩)

/-- The key of a line and what follows it. -/
def keyOf : Text → Option (Text × Text)
  | [] => none
  | c :: rest => if c = '@' then some ([], rest) else parseQuotedString (c :: rest)

theorem Key.of {k name : Text} (key : Key k name) (rest : Text) : keyOf (k ++ rest) = some (name, rest) := by
  cases key with
  | default => rfl
  | named string =>
      have read := parse_quoted string rest
      obtain ⟨body, opening⟩ := string.append rest
      rw [opening] at read ⊢
      have other : quote ≠ '@' := by decide
      rw [keyOf, if_neg other]
      exact read

/-- No loose line is in the grammar. -/
theorem Loose.not_denotes {body : Text} {r : Record} (loose : Loose body) : ¬Denotes encode body r := by
  intro denotes
  cases loose with
  | set key data =>
      rename_i k name d
      have read := key.of ('=' :: d)
      generalize k ++ '=' :: d = body at read denotes
      cases denotes with
      | set key' data' =>
          rw [key'.of] at read
          rw [(List.cons.inj (Prod.mk.inj (Option.some.inj read)).2).2] at data'
          exact data.not_data encode data'
      | delete key' blank' =>
          rw [key'.of] at read
          rw [← (List.cons.inj (Prod.mk.inj (Option.some.inj read)).2).2] at data
          exact data.head rfl
  | delete string more blank =>
      rename_i source name behind spaces
      have read := (Key.named string).of (behind ++ '=' :: '-' :: spaces)
      generalize source ++ (behind ++ '=' :: '-' :: spaces) = body at read denotes
      cases behind with
      | nil => exact more rfl
      | cons c behind =>
          cases denotes with
          | set key' data' =>
              rw [key'.of] at read
              rw [(List.cons.inj (Prod.mk.inj (Option.some.inj read)).2).2] at data'
              exact Data.not_deletion blank data'
          | delete key' blank' =>
              rw [key'.of] at read
              have tail := (List.cons.inj (Prod.mk.inj (Option.some.inj read)).2).2
              cases behind with
              | nil => exact absurd (List.cons.inj tail).1 (by decide)
              | cons c' behind =>
                  have member : '=' ∈ behind ++ '=' :: '-' :: spaces := by simp
                  have spaces' : _ = behind ++ '=' :: '-' :: spaces := (List.cons.inj tail).2
                  rw [← spaces'] at member
                  exact absurd (List.all_eq_true.mp blank' '=' member) (by decide)

/-- The importer keeps to the grammar at a line: it records what the line stands for,
and a line that stands for nothing and is not blank stops the import. -/
def Exact (encode : Text → List UInt8) (newnode : Text) (newvalues : List Value)
    (delvalues : List Text) (h : Hive) (line : Text) (lineno : Nat) : Prop :=
  (∀ r : Record, importLine encode (.inner newnode newvalues delvalues, h) (line, lineno) =
      .ok (r.addTo newnode newvalues delvalues, h) ↔ Denotes encode (chomp line) r) ∧
    (isBlank line = false → (∀ r, ¬Denotes encode (chomp line) r) →
      ∃ message, importLine encode (.inner newnode newvalues delvalues, h) (line, lineno) =
        .error (.croak message))

theorem exact_of_plain (plain : '\n' ∉ chomp line) :
    Exact encode newnode newvalues delvalues h line lineno ↔ ¬Loose (chomp line) := by
  constructor
  · rintro ⟨records, -⟩ loose
    obtain ⟨r, recorded⟩ := @innerLine_loose encode newnode newvalues delvalues h line lineno plain loose
    exact loose.not_denotes ((records r).mp recorded)
  · intro strict
    have sound := @innerLine_sound encode newnode newvalues delvalues h line lineno plain
    constructor
    · intro r
      constructor
      · intro recorded
        rcases sound with ⟨r', recorded', denotes | loose⟩ | blank | ⟨message, stopped⟩
        · have same := recorded.symm.trans recorded'
          rw [Record.addTo_inj (Prod.mk.inj (Except.ok.inj same)).1]
          exact denotes
        · exact absurd loose strict
        · exact absurd recorded (blank.2 r)
        · cases stopped.symm.trans recorded
      · exact innerLine_complete plain
    · intro solid none
      rcases sound with ⟨r', -, denotes | loose⟩ | blank | stopped
      · exact absurd denotes (none r')
      · exact absurd loose strict
      · rw [blank.1] at solid
        cases solid
      · exact stopped

end Lines

section Reading

/-- A line as it is read has at most one newline, at its end. -/
theorem rawLines_plain (text : Text) : ∀ line ∈ rawLines text, '\n' ∉ chomp line := by
  induction text with
  | nil => exact fun _ member => by cases member
  | cons c rest ih =>
      intro line member
      rw [rawLines] at member
      by_cases ending : c = '\n'
      · rw [if_pos ending, List.mem_cons] at member
        rcases member with rfl | later
        · rw [ending]
          decide
        · exact ih line later
      · rw [if_neg ending] at member
        have head : ∀ line, '\n' ∉ chomp line → '\n' ∉ chomp (c :: line) := by
          intro line free
          rw [chomp_cons ending, List.mem_cons]
          exact not_or.mpr ⟨fun same => ending same.symm, free⟩
        cases lines : rawLines rest with
        | nil =>
            rw [lines, List.mem_singleton] at member
            rw [member]
            exact head [] (by decide)
        | cons first others =>
            rw [lines] at member ih
            rcases List.mem_cons.mp member with rfl | later
            · exact head first (ih first (by simp))
            · exact ih line (by simp [later])

theorem chomp_joined {start rest : Text} (free : '\n' ∉ start) (plain : '\n' ∉ chomp rest) :
    '\n' ∉ chomp (start ++ rest) := by
  by_cases none : rest = []
  · rw [none, List.append_nil, chomp_of_newlineFree free]
    exact free
  · rw [chomp_behind rfl none, List.mem_append]
    exact not_or.mpr ⟨free, plain⟩

theorem continued_free {line start : Text} (joins : continued line = some start) (free : '\n' ∉ line) :
    '\n' ∉ start := by
  unfold continued at joins
  dsimp only at joins
  split at joins
  · rw [← Option.some.inj joins]
    intro member
    exact free ((List.rdropWhile_prefix isSpace line).subset (List.mem_of_mem_dropLast member))
  · cases joins

/-- Joining lines keeps newlines at their end. -/
theorem logicalLines_plain {lines : List Text} (plain : ∀ line ∈ lines, '\n' ∉ chomp line) :
    ∀ {carried : Text} {lineno : Nat}, '\n' ∉ carried →
      ∀ found ∈ logicalLines carried lineno lines, '\n' ∉ chomp found.1 := by
  induction lines with
  | nil => exact fun _ _ member => by cases member
  | cons raw rest ih =>
      intro carried lineno free found member
      have whole : '\n' ∉ chomp (carried ++ raw) := chomp_joined free (plain raw (by simp))
      have others : ∀ line ∈ rest, '\n' ∉ chomp line := fun line inside => plain line (by simp [inside])
      rw [logicalLines] at member
      cases joins : continued (chomp (carried ++ raw)) with
      | none =>
          rw [joins] at member
          rcases List.mem_cons.mp member with rfl | later
          · rw [chomp_of_newlineFree whole]
            exact whole
          · exact ih others (by simp) found later
      | some start =>
          rw [joins] at member
          have kept := continued_free joins whole
          cases rest with
          | nil =>
              rw [List.mem_singleton.mp member, chomp_of_newlineFree kept]
              exact kept
          | cons next tail =>
              cases tail with
              | nil =>
                  rw [List.mem_singleton.mp member]
                  exact chomp_joined kept (others next (by simp))
              | cons next' more => exact ih others kept found member

end Reading

/-- A section and its first line. -/
def sectionText (line : Text) : Text := ['[', backslash, 'A', ']', '\n'] ++ line

def stringLine : Text := ['@', '=', quote, 'b', quote]

/-- A value whose data ends like a deletion. -/
def junkLine : Text := [quote, 'a', quote, '=', quote, 'b', quote, '=', '-']

theorem junkLine_quoted : Quoted [quote, 'a', quote] ['a'] :=
  Quoted.between (Chars.plain (by decide) (by decide) Chars.nil)

end Regedit
