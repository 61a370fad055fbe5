import Hivex.Regedit

/-! What the importer makes of each line the exporter prints. -/
namespace Regedit
open LineText

section Values
variable (encode : Text → List UInt8)

theorem quotedRest_quote (rest : Text) : quotedRest (quote :: rest) = some ([], rest) := by
  cases rest with
  | nil => simp [quotedRest]
  | cons c rest => simp [quotedRest]

theorem quotedRest_escaped (c : Char) (rest : Text) :
    quotedRest (backslash :: c :: rest) =
      (quotedRest rest).map fun (out, last) => (c :: out, last) := by
  have differ : backslash ≠ quote := by decide
  simp [quotedRest, differ]

theorem quotedRest_plain {c : Char} (notQuote : c ≠ quote) (notBackslash : c ≠ backslash)
    (rest : Text) :
    quotedRest (c :: rest) = (quotedRest rest).map fun (out, last) => (c :: out, last) := by
  cases rest with
  | nil => simp [quotedRest, notQuote, notBackslash]
  | cons d rest => simp [quotedRest, notQuote, notBackslash]

theorem quotedRest_escapeQuotes (key rest : Text) :
    quotedRest (escapeQuotes key ++ quote :: rest) = some (key, rest) := by
  induction key with
  | nil => exact quotedRest_quote rest
  | cons c key ih =>
      by_cases special : c = backslash ∨ c = quote
      · have printed : escapeQuotes (c :: key) = backslash :: c :: escapeQuotes key := by
          simp [escapeQuotes, special]
        simp only [printed, List.cons_append, quotedRest_escaped, ih, Option.map_some]
      · have plain := not_or.mp special
        have printed : escapeQuotes (c :: key) = c :: escapeQuotes key := by
          simp [escapeQuotes, special]
        simp only [printed, List.cons_append, quotedRest_plain plain.2 plain.1, ih, Option.map_some]

theorem packV_unpackV {data : List UInt8} (four : data.length = 4) :
    unpackV data < 16 ^ 8 ∧ packV (unpackV data) = data := by
  match data, four with
  | [a, b, c, d], _ =>
      have first := a.toNat_lt
      have second := b.toNat_lt
      have third := c.toNat_lt
      have fourth := d.toNat_lt
      have value : unpackV [a, b, c, d] =
          a.toNat + 256 * (b.toNat + 256 * (c.toNat + 256 * d.toNat)) := by
        simp [unpackV]
      constructor
      · rw [value]
        omega
      · simp only [packV, value, List.cons.injEq, and_true, ← UInt8.toNat_inj,
          UInt8.toNat_ofNat']
        omega

theorem isXDigit_bounds {c : Char} (digit : isXDigit c = true) : 48 ≤ c.toNat ∧ c.toNat ≤ 102 := by
  simp only [isXDigit, Char.isDigit, Bool.or_eq_true, Bool.and_eq_true, decide_eq_true_eq,
    Char.le_def, UInt32.le_iff_toNat_le] at digit
  have number : c.toNat = c.val.toNat := rfl
  have zero : '0'.val.toNat = 48 ∧ '9'.val.toNat = 57 := by decide
  have small : 'a'.val.toNat = 97 ∧ 'f'.val.toNat = 102 := by decide
  have large : 'A'.val.toNat = 65 ∧ 'F'.val.toNat = 70 := by decide
  omega

/-- The characters the exporter writes after the equals sign. -/
def isDataChar (c : Char) : Bool := isXDigit c || c ∈ ['w', 'o', 'r', 'h', 'x', ':', '(', ')', ',']

theorem isDataChar_ne {c other : Char} (data : isDataChar c = true)
    (outside : isDataChar other = false) : c ≠ other := by
  intro same
  rw [same, outside] at data
  contradiction

theorem not_isSpace_of_isDataChar {c : Char} (data : isDataChar c = true) : isSpace c = false := by
  have listed : ∀ c ∈ ['w', 'o', 'r', 'h', 'x', ':', '(', ')', ','], isSpace c = false := by
    simp [isSpace]
  simp only [isDataChar, Bool.or_eq_true, decide_eq_true_eq] at data
  rcases data with digit | member
  · have bounds := isXDigit_bounds digit
    have notBlank : c ≠ ' ' := by
      intro blank
      rw [blank] at bounds
      exact absurd bounds.1 (by decide)
    simp only [isSpace, Bool.or_eq_false_iff, decide_eq_false_iff_not, Bool.and_eq_false_iff]
    exact ⟨notBlank, by omega⟩
  · exact listed c member

theorem not_isSpace_of_isXDigit {c : Char} (digit : isXDigit c = true) : isSpace c = false :=
  not_isSpace_of_isDataChar (by simp [isDataChar, digit])

theorem mem_hexList {data : List UInt8} {c : Char} (member : c ∈ hexList data) :
    isXDigit c = true ∨ c = ',' := by
  induction data with
  | nil => simp [hexList] at member
  | cons byte data ih =>
      cases data with
      | nil =>
          left
          apply isXDigit_of_mem_padded c
          simpa [hexList, byteDigits] using member
      | cons next data =>
          have split : hexList (byte :: next :: data) =
              byteDigits byte ++ ',' :: hexList (next :: data) := by
            simp [hexList]
          rw [split, List.mem_append, List.mem_cons] at member
          rcases member with digit | comma | later
          · left
            exact isXDigit_of_mem_padded c digit
          · right
            exact comma
          · exact ih later

theorem dataFromHexDigits_hexList (data : List UInt8) : dataFromHexDigits (hexList data) = data := by
  have keeps : ∀ byte : UInt8,
      (byteDigits byte).filter (fun c => !(c = ',' || isSpace c)) = byteDigits byte := by
    intro byte
    apply List.filter_eq_self.mpr
    intro c member
    have digit : isXDigit c = true := isXDigit_of_mem_padded c member
    have notComma : c ≠ ',' := by
      intro comma
      rw [comma] at digit
      exact absurd digit (by decide)
    simp [notComma, not_isSpace_of_isXDigit digit]
  have stripped : (hexList data).filter (fun c => !(c = ',' || isSpace c)) =
      data.flatMap byteDigits := by
    induction data with
    | nil => rfl
    | cons byte data ih =>
        cases data with
        | nil => simpa [hexList] using keeps byte
        | cons next data =>
            have split : hexList (byte :: next :: data) =
                byteDigits byte ++ ',' :: hexList (next :: data) := by
              simp [hexList]
            rw [split, List.filter_append, keeps, List.filter_cons_of_neg (by simp), ih]
            rfl
  rw [dataFromHexDigits, stripped, packNibbles_byteDigits]

/-- The data as the exporter prints it when strings are bytes. -/
def dataText (value : Value) : Text := printData {} value

theorem dataText_dword {value : Value} (dword : value.t = 4 ∧ value.value.length = 4) :
    dataText value = "dword:".toList ++ hexadecimalPadded 8 (unpackV value.value) := by
  simp [dataText, printData, dword]

theorem dataText_hex {value : Value} (other : ¬(value.t = 4 ∧ value.value.length = 4)) :
    dataText value =
      "hex(".toList ++ hexadecimal value.t ++ "):".toList ++ hexList value.value := by
  simp only [dataText, printData, if_neg other]

theorem isDataChar_of_mem_dataText {value : Value} {c : Char} (member : c ∈ dataText value) :
    isDataChar c = true := by
  have fixed : (∀ c ∈ "dword:".toList, isDataChar c = true) ∧
      (∀ c ∈ "hex(".toList, isDataChar c = true) ∧ ∀ c ∈ "):".toList, isDataChar c = true := by
    simp [isDataChar, isXDigit]
  have digits : ∀ c, isXDigit c = true → isDataChar c = true := by
    intro c digit
    simp [isDataChar, digit]
  by_cases dword : value.t = 4 ∧ value.value.length = 4
  · rw [dataText_dword dword, List.mem_append] at member
    rcases member with keyword | digit
    · exact fixed.1 c keyword
    · exact digits c (isXDigit_of_mem_padded c digit)
  · rw [dataText_hex dword, List.mem_append, List.mem_append, List.mem_append] at member
    rcases member with ((keyword | digit) | closing) | listed
    · exact fixed.2.1 c keyword
    · exact digits c (isXDigit_of_mem_hexadecimal c digit)
    · exact fixed.2.2 c closing
    · rcases mem_hexList listed with digit | comma
      · exact digits c digit
      · rw [comma]
        decide

theorem dataText_ne_nil (value : Value) : dataText value ≠ [] := by
  by_cases dword : value.t = 4 ∧ value.value.length = 4
  · simp [dataText_dword dword]
  · simp [dataText_hex dword]

theorem newlineFree_dataText (value : Value) : '\n' ∉ dataText value := by
  intro member
  exact isDataChar_ne (isDataChar_of_mem_dataText member) (by decide) rfl

theorem typed_append {opening rest : Text} (n : Nat) :
    typed opening (opening ++ hexadecimal n ++ "):".toList ++ rest) = some (n, rest) := by
  have every : ∀ c ∈ hexadecimal n, isXDigit c = true := isXDigit_of_mem_hexadecimal
  have stop : isXDigit ')' = false := by decide
  have digits : (hexadecimal n ++ ("):".toList ++ rest)).takeWhile isXDigit = hexadecimal n := by
    rw [List.takeWhile_append_of_pos every]
    simp [stop]
  have left : (hexadecimal n ++ ("):".toList ++ rest)).dropWhile isXDigit = "):".toList ++ rest := by
    rw [List.dropWhile_append_of_pos every]
    simp [stop]
  have split : opening ++ hexadecimal n ++ "):".toList ++ rest =
      opening ++ (hexadecimal n ++ ("):".toList ++ rest)) := by
    simp only [List.append_assoc]
  simp only [typed, split, after_append, digits, left, hexadecimal_ne_nil, if_false,
    hexValue_hexadecimal, Option.map_some]

theorem parseValue_dataText (value : Value) :
    parseValue encode value.key (dataText value) = some value := by
  have line : chomp (dataText value) = dataText value :=
    chomp_of_newlineFree (newlineFree_dataText value)
  by_cases dword : value.t = 4 ∧ value.value.length = 4
  · obtain ⟨small, packed⟩ := packV_unpackV dword.2
    have found : dwordDigits (dataText value) =
        some (hexadecimalPadded 8 (unpackV value.value)) := by
      rw [dataText_dword dword, dwordDigits, after_append]
      simp only [Option.filter_some, length_hexadecimalPadded (by omega : 0 < 8) small,
        List.all_eq_true.mpr isXDigit_of_mem_padded, and_self, decide_true, if_true]
    simp only [parseValue, line, found, hexValue_padded, packed]
    rw [← dword.1]
  · have text := dataText_hex dword
    have notDword : dwordDigits (dataText value) = none := by
      rw [dwordDigits, text]
      simp [after_none_of_head (by decide : 'd' ≠ 'h')]
    have notPlain : after "hex:".toList (dataText value) = none := by
      rw [text]
      simp [after]
    have found : typed "hex(".toList (dataText value) = some (value.t, hexList value.value) := by
      rw [text]
      exact typed_append value.t
    simp only [parseValue, line, notDword, notPlain, found, dataFromHexDigits_hexList]

/-- A value as one line. -/
def valueLine (value : Value) : Text := printKey value.key ++ dataText value

theorem printValue_eq (value : Value) : printValue {} value = valueLine value ++ ['\n'] := rfl

theorem valueLine_named {value : Value} (named : value.key ≠ []) :
    valueLine value = quote :: (escapeQuotes value.key ++ [quote, '='] ++ dataText value) := by
  simp [valueLine, printKey, named]

theorem valueLine_default {value : Value} (unnamed : value.key = []) :
    valueLine value = ['@', '='] ++ dataText value := by
  simp [valueLine, printKey, unnamed]

theorem parseKeyValue_valueLine {value : Value} (named : value.key ≠ []) :
    parseKeyValue encode (valueLine value) = some value := by
  have split : valueLine value =
      quote :: (escapeQuotes value.key ++ quote :: (['='] ++ dataText value)) := by
    simp [valueLine_named named]
  have parsed : parseQuotedString (valueLine value) = some (value.key, ['='] ++ dataText value) := by
    rw [split, parseQuotedString, if_pos rfl, quotedRest_escapeQuotes]
  simp only [parseKeyValue, parsed, after_append, Option.bind_some, parseValue_dataText]

end Values

section Ends

theorem trimEnd_of_last {text : Text} {last : Char} (solid : isSpace last = false) :
    trimEnd (text ++ [last]) = text ++ [last] :=
  List.rdropWhile_concat_neg isSpace text last (by simp [solid])

theorem continued_of_last {text : Text} {last : Char} (solid : isSpace last = false)
    (plain : last ≠ backslash) : continued (text ++ [last]) = none := by
  simp [continued, trimEnd_of_last solid, plain]

theorem valueLine_last (value : Value) :
    ∃ text last, valueLine value = text ++ [last] ∧ isDataChar last = true := by
  have split := List.dropLast_append_getLast (dataText_ne_nil value)
  exists printKey value.key ++ (dataText value).dropLast
  exists (dataText value).getLast (dataText_ne_nil value)
  constructor
  · rw [valueLine, List.append_assoc, split]
  · exact isDataChar_of_mem_dataText (List.getLast_mem (dataText_ne_nil value))

theorem trimEnd_valueLine (value : Value) : trimEnd (valueLine value) = valueLine value := by
  obtain ⟨text, last, split, data⟩ := valueLine_last value
  rw [split, trimEnd_of_last (not_isSpace_of_isDataChar data)]

theorem continued_valueLine (value : Value) : continued (valueLine value) = none := by
  obtain ⟨text, last, split, data⟩ := valueLine_last value
  rw [split]
  exact continued_of_last (not_isSpace_of_isDataChar data) (isDataChar_ne data (by decide))

theorem newlineFree_escapeQuotes {key : Text} (free : '\n' ∉ key) : '\n' ∉ escapeQuotes key := by
  intro member
  rw [escapeQuotes, List.mem_flatMap] at member
  obtain ⟨c, inKey, printed⟩ := member
  have same : '\n' = c := by
    have plain : '\n' ≠ backslash := by decide
    split at printed
    · simpa [plain] using printed
    · simpa using printed
  rw [same] at free
  exact free inKey

theorem newlineFree_valueLine {value : Value} (free : '\n' ∉ value.key) :
    '\n' ∉ valueLine value := by
  have keys := newlineFree_escapeQuotes free
  have data := newlineFree_dataText value
  by_cases named : value.key = []
  · simp [valueLine_default named, data]
  · have plain : '\n' ≠ quote := by decide
    simp [valueLine_named named, data, keys, plain]

-- A deletion ends in a minus sign, which the exporter never writes there.
theorem not_delete_valueLine (value : Value) :
    isDeleteValue (valueLine value) = false ∧ isDeleteDefault (valueLine value) = false := by
  obtain ⟨text, last, split, data⟩ := valueLine_last value
  have notMinus : last ≠ '-' := isDataChar_ne data (by decide)
  have notEnd : ∀ c rest, valueLine value = c :: rest → ¬['=', '-'] <:+ rest := by
    rintro c rest shape ⟨start, ends⟩
    have whole : text ++ [last] = (c :: start ++ ['=']) ++ ['-'] := by
      rw [← split, shape, ← ends]
      simp
    exact notMinus (List.singleton_inj.mp (List.append_inj' whole rfl).2)
  constructor
  · rw [isDeleteValue, trimEnd_valueLine]
    cases shape : valueLine value with
    | nil => rfl
    | cons c rest => simp [notEnd c rest shape]
  · rw [isDeleteDefault, trimEnd_valueLine, beq_eq_false_iff_ne, ne_eq]
    intro same
    exact notEnd '@' ['=', '-'] same List.suffix_rfl

end Ends

section Node

theorem innerLine_valueLine (encode : Text → List UInt8) (newnode : Text) (newvalues : List Value)
    (delvalues : List Text) (h : Hive) (value : Value) (lineno : Nat) :
    innerLine encode newnode newvalues delvalues h (valueLine value) lineno =
      .ok (.inner newnode (newvalues ++ [value]) delvalues, h) := by
  obtain ⟨kept, keptDefault⟩ := not_delete_valueLine value
  by_cases named : value.key = []
  · have notOrdinary : isOrdinaryValue (valueLine value) = false := by
      have differ : '@' ≠ quote := by decide
      simp [valueLine_default named, isOrdinaryValue, differ]
    have found : after ['@', '='] (valueLine value) = some (dataText value) := by
      rw [valueLine_default named]
      exact after_append ['@', '='] (dataText value)
    have parsed : parseValue encode [] (chomp (dataText value)) = some value := by
      rw [chomp_of_newlineFree (newlineFree_dataText value), ← named]
      exact parseValue_dataText encode value
    simp [innerLine, kept, keptDefault, notOrdinary, found, parsed]
  · have ordinary : isOrdinaryValue (valueLine value) = true := by
      have closing : [quote, '='] <:+: escapeQuotes value.key ++ [quote, '='] ++ dataText value :=
        List.infix_append (escapeQuotes value.key) [quote, '='] (dataText value)
      rw [valueLine_named named]
      simpa [isOrdinaryValue] using closing
    simp [innerLine, kept, keptDefault, ordinary, parseKeyValue_valueLine encode named]

theorem innerLine_blank (encode : Text → List UInt8) (newnode : Text) (newvalues : List Value)
    (delvalues : List Text) (h : Hive) (lineno : Nat) :
    innerLine encode newnode newvalues delvalues h [] lineno =
      (mergeNode h newnode newvalues delvalues).map fun h => (.outer, h) := by
  rfl

def nodeLine (node : Node) : Text := '[' :: nodeCanonicalPath node ++ [']']

theorem nodeCanonicalPath_head (node : Node) :
    ∃ rest, nodeCanonicalPath node = backslash :: rest := by
  induction node with
  | nil => exact ⟨[], rfl⟩
  | cons name parent ih =>
      obtain ⟨rest, path⟩ := ih
      simp only [nodeCanonicalPath]
      split
      · exact ⟨rest ++ name, by simp [path]⟩
      · exact ⟨rest ++ backslash :: name, by simp [path]⟩

theorem mem_nodeCanonicalPath {node : Node} {c : Char} (member : c ∈ nodeCanonicalPath node) :
    c = backslash ∨ ∃ name ∈ node, c ∈ name := by
  induction node with
  | nil =>
      left
      simpa [nodeCanonicalPath] using member
  | cons name parent ih =>
      have parts : c ∈ nodeCanonicalPath parent ∨ c = backslash ∨ c ∈ name := by
        simp only [nodeCanonicalPath] at member
        split at member
        · rcases List.mem_append.mp member with inParent | inName
          · exact Or.inl inParent
          · exact Or.inr (Or.inr inName)
        · rcases List.mem_append.mp member with inParent | later
          · exact Or.inl inParent
          · exact Or.inr (List.mem_cons.mp later)
      rcases parts with inParent | separator | inName
      · rcases ih inParent with separator | ⟨other, listed, inside⟩
        · exact Or.inl separator
        · exact Or.inr ⟨other, List.mem_cons_of_mem name listed, inside⟩
      · exact Or.inl separator
      · exact Or.inr ⟨name, List.mem_cons_self, inName⟩

theorem continued_nodeLine (node : Node) : continued (nodeLine node) = none :=
  continued_of_last (by decide) (by decide)

theorem newlineFree_nodeLine {node : Node} (free : ∀ name ∈ node, '\n' ∉ name) :
    '\n' ∉ nodeLine node := by
  intro member
  have inPath : '\n' ∈ nodeCanonicalPath node := by
    simpa [nodeLine] using member
  rcases mem_nodeCanonicalPath inPath with separator | ⟨name, listed, inside⟩
  · exact absurd separator (by decide)
  · exact free name listed inside

theorem isIgnored_nodeLine (node : Node) :
    isIgnored (nodeLine node) = true ↔ header <:+: nodeLine node := by
  have bracket : nodeLine node = '[' :: (nodeCanonicalPath node ++ [']']) := rfl
  have notBlank : isBlank (nodeLine node) = false := by
    simp [isBlank, bracket, isSpace]
  have notRegedit : ¬['R', 'E', 'G', 'E', 'D', 'I', 'T'] <+: nodeLine node := by
    rw [bracket]
    intro begins
    exact absurd (List.cons_prefix_cons.mp begins).1 (by decide)
  have notComment : ((nodeLine node).dropWhile isSpace).head? ≠ some ';' := by
    have solid : isSpace '[' = false := by decide
    simp [bracket, solid]
  simp [isIgnored, notBlank, notRegedit, notComment]

theorem outerLine_nodeLine {node : Node} (readable : ¬header <:+: nodeLine node) (h : Hive)
    (lineno : Nat) :
    outerLine h (nodeLine node) lineno = .ok (.inner (nodeCanonicalPath node) [] [], h) := by
  have taken : isIgnored (nodeLine node) = false :=
    Bool.eq_false_iff.mpr fun ignored => readable ((isIgnored_nodeLine node).mp ignored)
  have trimmed : trimEnd (nodeLine node) = nodeLine node := trimEnd_of_last (by decide)
  obtain ⟨rest, path⟩ := nodeCanonicalPath_head node
  have notDelete : bracketed ['[', '-'] (nodeLine node) = none := by
    have apart : after ['[', '-'] (nodeLine node) = none := by
      have differ : '-' ≠ backslash := by decide
      simp [after, nodeLine, path, differ]
    simp [bracketed, trimmed, apart]
  have found : bracketed ['['] (nodeLine node) = some (nodeCanonicalPath node) := by
    have inside : after ['['] (nodeLine node) = some (nodeCanonicalPath node ++ [']']) :=
      after_append ['['] (nodeCanonicalPath node ++ [']'])
    simp [bracketed, trimmed, inside]
  simp [outerLine, taken, notDelete, found]

end Node

section Blocks

/-- The lines of one node: its path, its values, and the blank line after them. -/
def blockLines (entry : Entry) : List Text :=
  nodeLine entry.node :: entry.values.map valueLine ++ [[]]

def printEntry (entry : Entry) : Text := unlines (blockLines entry)

theorem printNode_eq (node : Node) (values : List Value) :
    printNode {} node values =
      printEntry ⟨node, values.mergeSort fun a b => a.key ≤ b.key⟩ := by
  have lines : ∀ values : List Value,
      values.flatMap (printValue {}) = unlines (values.map valueLine) := by
    intro values
    rw [unlines, List.flatMap_map]
    rfl
  simp [printNode, printEntry, blockLines, lines, nodeLine, unlines]

def LineFree (entry : Entry) : Prop :=
  (∀ name ∈ entry.node, '\n' ∉ name) ∧ ∀ value ∈ entry.values, '\n' ∉ value.key

theorem blockLines_whole {entry : Entry} (free : LineFree entry) :
    ∀ line ∈ blockLines entry, '\n' ∉ line ∧ continued line = none := by
  intro line member
  rw [blockLines, List.cons_append, List.mem_cons, List.mem_append, List.mem_map,
    List.mem_singleton] at member
  rcases member with node | ⟨value, listed, rfl⟩ | blank
  · rw [node]
    exact ⟨newlineFree_nodeLine free.1, continued_nodeLine entry.node⟩
  · exact ⟨newlineFree_valueLine (free.2 value listed), continued_valueLine value⟩
  · rw [blank]
    exact ⟨by simp, by decide⟩

theorem logicalLines_whole {lines : List Text}
    (whole : ∀ line ∈ lines, '\n' ∉ line ∧ continued line = none) (lineno : Nat) :
    logicalLines [] lineno (lines.map (· ++ ['\n'])) = lines.zipIdx (lineno + 1) := by
  induction lines generalizing lineno with
  | nil => rfl
  | cons line lines ih =>
      have later := ih (fun other member => whole other (List.mem_cons_of_mem line member))
        (lineno + 1)
      simp [logicalLines, (whole line (by simp)).2, later, List.zipIdx_cons]

theorem logicalLines_printed {entries : List Entry} (free : ∀ entry ∈ entries, LineFree entry) :
    logicalLines [] 0 (rawLines (entries.flatMap printEntry)) =
      (entries.flatMap blockLines).zipIdx 1 := by
  have whole : ∀ line ∈ entries.flatMap blockLines, '\n' ∉ line ∧ continued line = none := by
    intro line member
    obtain ⟨entry, listed, inBlock⟩ := List.mem_flatMap.mp member
    exact blockLines_whole (free entry listed) line inBlock
  have joined : entries.flatMap printEntry = unlines (entries.flatMap blockLines) := by
    rw [unlines, List.flatMap_assoc]
    rfl
  rw [joined, rawLines_unlines fun line member => (whole line member).1]
  exact logicalLines_whole whole 0

end Blocks

section Running
variable (encode : Text → List UInt8)

theorem importLines_values (newnode : Text) (values newvalues : List Value) (h : Hive)
    (lineno : Nat) :
    ((values.map valueLine).zipIdx lineno).foldlM (importLine encode)
        (.inner newnode newvalues [], h) =
      .ok (.inner newnode (newvalues ++ values) [], h) := by
  induction values generalizing newvalues lineno with
  | nil => simp [pure, Except.pure]
  | cons value values ih =>
      have step : importLine encode (.inner newnode newvalues [], h) (valueLine value, lineno) =
          .ok (.inner newnode (newvalues ++ [value]) [], h) :=
        innerLine_valueLine encode newnode newvalues [] h value lineno
      rw [List.map_cons, List.zipIdx_cons, List.foldlM_cons, step]
      simpa [bind, Except.bind] using ih (newvalues ++ [value]) (lineno + 1)

/-- The lines of a block merge its node, whatever their numbers. -/
theorem importLines_block {entry : Entry} (readable : ¬header <:+: nodeLine entry.node)
    (h : Hive) (lineno : Nat) :
    ((blockLines entry).zipIdx lineno).foldlM (importLine encode) (.outer, h) =
      (mergeNode h (nodeCanonicalPath entry.node) entry.values []).map fun h => (.outer, h) := by
  have start : importLine encode (.outer, h) (nodeLine entry.node, lineno) =
      .ok (.inner (nodeCanonicalPath entry.node) [] [], h) :=
    outerLine_nodeLine readable h lineno
  have values := importLines_values encode (nodeCanonicalPath entry.node) entry.values [] h
    (lineno + 1)
  have blank : ∀ lineno, importLine encode
      (.inner (nodeCanonicalPath entry.node) entry.values [], h) ([], lineno) =
      (mergeNode h (nodeCanonicalPath entry.node) entry.values []).map fun h => (.outer, h) :=
    innerLine_blank encode (nodeCanonicalPath entry.node) entry.values [] h
  rw [blockLines, List.cons_append, List.zipIdx_cons, List.foldlM_cons, start]
  simp only [bind, Except.bind, List.zipIdx_append, List.foldlM_append]
  rw [values]
  simp only [List.nil_append, List.zipIdx_cons, List.zipIdx_nil, List.foldlM_cons,
    List.foldlM_nil, bind, Except.bind, blank]
  cases mergeNode h (nodeCanonicalPath entry.node) entry.values [] with
  | error reason => rfl
  | ok merged => rfl

end Running

end Regedit
