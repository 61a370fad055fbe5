import Hivex.RegeditGrammar

/-! Quoting and unquoting as Regedit.pm writes them: two substitution passes, and a loop on
an index that skips the character behind a backslash. -/
namespace Regedit
open LineText

/-- `s/c/replacement/g` for a single character. -/
def substitute (c : Char) (replacement text : Text) : Text :=
  text.flatMap fun d => if d = c then replacement else [d]

/-- `_escape_quotes`, one pass after the other. -/
def escapeQuotesInPasses (key : Text) : Text :=
  substitute quote [backslash, quote] (substitute backslash [backslash, backslash] key)

/-- The `for` loop: what it has copied, and the index where it ends. -/
def quotedLoop (text : Text) (i : Nat) (out : Text) : Text × Nat :=
  if inside : i < text.length then
    if text[i] = quote then (out, i)
    else if text[i] = backslash then quotedLoop text (i + 2) (out ++ text[i + 1]?.toList)
    else quotedLoop text (i + 1) (out ++ [text[i]])
  else (out, i)
termination_by text.length - i

/-- `_parse_quoted_string` in list context. -/
def parseQuotedStringAt (text : Text) : Option (Text × Text) :=
  if text.head? ≠ some quote then none
  else
    let (out, i) := quotedLoop text 1 []
    if i = text.length then none else some (out, text.drop (i + 1))

/-- Which characters belong to a backslash escape. -/
def inEscape : Text → List Bool
  | [] => []
  | c :: rest =>
      if c = backslash then
        match rest with
        | [] => [true]
        | _ :: rest => true :: true :: inEscape rest
      else false :: inEscape rest

/-- The text with the backslash of each escape left out. -/
def unescape : Text → Text
  | [] => []
  | c :: rest =>
      if c = backslash then
        match rest with
        | [] => []
        | d :: rest => d :: unescape rest
      else c :: unescape rest

/-- A double quote outside a backslash escape. -/
def Closes (text : Text) (n : Nat) : Prop := text[n]? = some quote ∧ (inEscape text)[n]? = some false

section Passes

theorem substitute_append (c : Char) (replacement first second : Text) :
    substitute c replacement (first ++ second) =
      substitute c replacement first ++ substitute c replacement second := List.flatMap_append

theorem escapeQuotes_passes (key : Text) : escapeQuotesInPasses key = escapeQuotes key := by
  induction key with
  | nil => rfl
  | cons c key ih =>
      have split : substitute backslash [backslash, backslash] (c :: key) =
          (if c = backslash then [backslash, backslash] else [c]) ++
            substitute backslash [backslash, backslash] key := rfl
      have printed : escapeQuotes (c :: key) =
          (if c = backslash ∨ c = quote then [backslash, c] else [c]) ++ escapeQuotes key := rfl
      unfold escapeQuotesInPasses at ih ⊢
      rw [split, substitute_append, ih, printed]
      congr 1
      by_cases isBackslash : c = backslash
      · subst isBackslash
        decide
      · by_cases isQuote : c = quote
        · subst isQuote
          decide
        · simp [isBackslash, isQuote, substitute]

end Passes

section Loop
variable {text : Text} {n : Nat}

/-- The loop agrees with the recursion on what is left of the text. -/
theorem quotedLoop_rest (text : Text) (i : Nat) (out : Text) (within : i ≤ text.length) :
    match quotedRest (text.drop i) with
    | none => (quotedLoop text i out).2 = text.length
    | some (o, rest) => ∃ j, quotedLoop text i out = (out ++ o, j) ∧ j ≠ text.length ∧ text.drop (j + 1) = rest := by
  fun_induction quotedLoop text i out with
  | case1 i out inside isQuote =>
      rw [List.drop_eq_getElem_cons inside, isQuote, quotedRest_quote]
      exact ⟨i, by simp, by omega, rfl⟩
  | case2 i out inside notQuote isBackslash ih =>
      rw [List.drop_eq_getElem_cons inside, isBackslash]
      by_cases last : i + 1 < text.length
      · have next := ih (by omega)
        rw [List.drop_eq_getElem_cons last, quotedRest_escaped]
        rw [List.getElem?_eq_getElem last] at next ⊢
        cases read : quotedRest (text.drop (i + 1 + 1)) with
        | none =>
            rw [read] at next
            exact next
        | some result =>
            rw [read] at next
            obtain ⟨j, run, apart, rest⟩ := next
            exact ⟨j, by rw [run]; simp, apart, rest⟩
      · have ends : text.drop (i + 1) = [] := List.drop_eq_nil_of_le (by omega)
        have beyond : text[i + 1]? = none := List.getElem?_eq_none (by omega)
        have past : quotedRest [backslash] = some ([], []) := by decide
        rw [ends, past, beyond, quotedLoop, dif_neg (by omega)]
        exact ⟨i + 2, by simp, by omega, List.drop_eq_nil_of_le (by omega)⟩
  | case3 i out inside notQuote notBackslash ih =>
      rw [List.drop_eq_getElem_cons inside, quotedRest_plain notQuote notBackslash]
      have next := ih (by omega)
      cases read : quotedRest (text.drop (i + 1)) with
      | none =>
          rw [read] at next
          exact next
      | some result =>
          rw [read] at next
          obtain ⟨j, run, apart, rest⟩ := next
          exact ⟨j, by rw [run]; simp, apart, rest⟩
  | case4 i out outside =>
      have same : i = text.length := by omega
      rw [List.drop_eq_nil_of_le (by omega)]
      exact same

theorem parseQuotedString_loop (text : Text) : parseQuotedStringAt text = parseQuotedString text := by
  cases text with
  | nil => rfl
  | cons c rest =>
      by_cases opens : c = quote
      · subst opens
        have loop := quotedLoop_rest (quote :: rest) 1 [] (by simp)
        rw [parseQuotedStringAt, if_neg (by simp), parseQuotedString, if_pos rfl]
        rw [List.drop_one, List.tail_cons] at loop
        cases read : quotedRest rest with
        | none =>
            rw [read] at loop
            exact if_pos loop
        | some result =>
            rw [read] at loop
            obtain ⟨j, run, apart, rest⟩ := loop
            rw [run]
            dsimp only
            rw [if_neg apart, rest, List.nil_append]
      · rw [parseQuotedStringAt, if_pos (by simpa using opens), parseQuotedString, if_neg opens]

end Loop

section Closing
variable {c d : Char} {text rest : Text} {n : Nat}

theorem inEscape_plain (notBackslash : c ≠ backslash) : inEscape (c :: rest) = false :: inEscape rest := by
  cases rest <;> simp [inEscape, notBackslash]

theorem inEscape_escaped (d : Char) (rest : Text) :
    inEscape (backslash :: d :: rest) = true :: true :: inEscape rest := by
  rw [inEscape, if_pos rfl]

theorem unescape_plain (notBackslash : c ≠ backslash) : unescape (c :: rest) = c :: unescape rest := by
  cases rest <;> simp [unescape, notBackslash]

theorem unescape_escaped (d : Char) (rest : Text) : unescape (backslash :: d :: rest) = d :: unescape rest := by
  rw [unescape, if_pos rfl]

theorem closes_quote : Closes (quote :: rest) 0 := by
  constructor
  · rfl
  · rw [inEscape_plain (by decide)]
    rfl

theorem closes_escaped : Closes (backslash :: d :: rest) (n + 2) ↔ Closes rest n := by
  rw [Closes, inEscape_escaped]
  exact Iff.rfl

theorem escape_open (early : n < 2) : ¬Closes (backslash :: d :: rest) n := by
  rintro ⟨-, outside⟩
  rw [inEscape_escaped] at outside
  rcases n with _ | _ | n
  · cases outside
  · cases outside
  · omega

theorem closes_plain (notBackslash : c ≠ backslash) : Closes (c :: rest) (n + 1) ↔ Closes rest n := by
  rw [Closes, inEscape_plain notBackslash]
  exact Iff.rfl

theorem plain_open (notQuote : c ≠ quote) : ¬Closes (c :: rest) 0 := by
  rintro ⟨isQuote, -⟩
  exact notQuote (Option.some.inj isQuote)

-- Without a closing quote there is no result, unless the text ends inside an escape.
theorem quotedRest_open (text : Text) (opens : ∀ n, ¬Closes text n) (whole : text.getLast? ≠ some backslash) :
    quotedRest text = none := by
  induction text using quotedRest.induct with
  | case1 => rfl
  | case2 rest => exact absurd closes_quote (opens 0)
  | case3 differ => exact absurd rfl whole
  | case4 d rest differ ih =>
      rw [quotedRest_escaped, ih]
      · rfl
      · exact fun n closes => opens (n + 2) (closes_escaped.mpr closes)
      · intro last
        apply whole
        rw [List.getLast?_cons, List.getLast?_cons, last]
        rfl
  | case5 c rest notQuote notBackslash ih =>
      rw [quotedRest_plain notQuote notBackslash, ih]
      · rfl
      · exact fun n closes => opens (n + 1) ((closes_plain notBackslash).mpr closes)
      · intro last
        apply whole
        rw [List.getLast?_cons, last]
        rfl

-- The first closing quote is where the text is split.
theorem quotedRest_first (text : Text) (n : Nat) (closes : Closes text n) (first : ∀ m < n, ¬Closes text m) :
    quotedRest text = some (unescape (text.take n), text.drop (n + 1)) := by
  induction text using quotedRest.induct generalizing n with
  | case1 =>
      obtain ⟨isQuote, -⟩ := closes
      cases isQuote
  | case2 rest =>
      have zero : n = 0 := by
        by_contra later
        exact first 0 (by omega) closes_quote
      rw [zero, quotedRest_quote]
      rfl
  | case3 differ =>
      obtain ⟨-, outside⟩ := closes
      rcases n with _ | n
      · simp [inEscape] at outside
      · simp [inEscape] at outside
  | case4 d rest differ ih =>
      have late : ¬n < 2 := fun early => escape_open early closes
      obtain ⟨m, rfl⟩ : ∃ m, n = m + 2 := ⟨n - 2, by omega⟩
      rw [quotedRest_escaped, ih m (closes_escaped.mp closes)]
      · rw [List.take_succ_cons, List.take_succ_cons, unescape_escaped]
        rfl
      · exact fun k below inside => first (k + 2) (by omega) (closes_escaped.mpr inside)
  | case5 c rest notQuote notBackslash ih =>
      have late : n ≠ 0 := by
        rintro rfl
        exact plain_open notQuote closes
      obtain ⟨m, rfl⟩ : ∃ m, n = m + 1 := ⟨n - 1, by omega⟩
      rw [quotedRest_plain notQuote notBackslash, ih m ((closes_plain notBackslash).mp closes)]
      · rw [List.take_succ_cons, unescape_plain notBackslash]
        rfl
      · exact fun k below inside => first (k + 1) (by omega) ((closes_plain notBackslash).mpr inside)

theorem quotedRest_none_iff (whole : text.getLast? ≠ some backslash) :
    quotedRest text = none ↔ ¬∃ n, Closes text n := by
  constructor
  · rintro none ⟨n, closes⟩
    classical
    have least : ∃ n, Closes text n := ⟨n, closes⟩
    rw [quotedRest_first text (Nat.find least) (Nat.find_spec least) fun m below => Nat.find_min least below] at none
    cases none
  · intro opens
    exact quotedRest_open text (fun n closes => opens ⟨n, closes⟩) whole

end Closing

section Unquoting

-- The opening quote is outside every escape, so positions move by one.
theorem closes_opened {rest : Text} {n : Nat} : Closes (quote :: rest) (n + 1) ↔ Closes rest n :=
  closes_plain (by decide)

/-- Unquoting undoes quoting, and fails exactly on a string without its two quotes. -/
theorem parseQuotedStringAt_spec :
    (∀ k rest, parseQuotedStringAt (quote :: escapeQuotesInPasses k ++ quote :: rest) = some (k, rest)) ∧
    ∀ text : Text, text.getLast? ≠ some backslash →
      (parseQuotedStringAt text = none ↔ text.head? ≠ some quote ∨ ¬∃ n, 0 < n ∧ Closes text n) ∧
      ∀ n, text.head? = some quote → 0 < n → Closes text n → (∀ m, 0 < m → m < n → ¬Closes text m) →
        parseQuotedStringAt text = some (unescape ((text.take n).drop 1), text.drop (n + 1)) := by
  constructor
  · intro k rest
    rw [parseQuotedString_loop, escapeQuotes_passes, List.cons_append, parseQuotedString, if_pos rfl]
    exact quotedRest_escapeQuotes k rest
  · intro text whole
    rw [parseQuotedString_loop]
    cases text with
    | nil => simp [parseQuotedString]
    | cons c rest =>
        by_cases opens : c = quote
        · subst opens
          have wholeRest : rest.getLast? ≠ some backslash := by
            intro last
            apply whole
            rw [List.getLast?_cons, last]
            rfl
          have shift : (∃ n, 0 < n ∧ Closes (quote :: rest) n) ↔ ∃ n, Closes rest n := by
            constructor
            · rintro ⟨n, positive, closes⟩
              obtain ⟨m, rfl⟩ : ∃ m, n = m + 1 := ⟨n - 1, by omega⟩
              exact ⟨m, closes_opened.mp closes⟩
            · rintro ⟨n, closes⟩
              exact ⟨n + 1, by omega, closes_opened.mpr closes⟩
          rw [parseQuotedString, if_pos rfl]
          constructor
          · rw [quotedRest_none_iff wholeRest, shift]
            simp
          · intro n _ positive closes first
            obtain ⟨m, rfl⟩ : ∃ m, n = m + 1 := ⟨n - 1, by omega⟩
            rw [quotedRest_first rest m (closes_opened.mp closes) fun k below inside =>
              first (k + 1) (by omega) (by omega) (closes_opened.mpr inside)]
            simp
        · rw [parseQuotedString, if_neg opens]
          simp [opens]

theorem parseQuotedStringAt_short : parseQuotedStringAt [quote, 'a', quote, 'b'] = some (['a'], ['b']) := by
  have closes : Closes [quote, 'a', quote, 'b'] 2 := ⟨rfl, by decide⟩
  apply (parseQuotedStringAt_spec.2 [quote, 'a', quote, 'b'] (by decide)).2 2 rfl (by decide) closes
  rintro m positive below ⟨isQuote, -⟩
  obtain rfl : m = 1 := by omega
  revert isQuote
  decide

end Unquoting

end Regedit
